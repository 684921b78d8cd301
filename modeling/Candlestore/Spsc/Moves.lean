import Candlestore.Spsc.Ring

/-!
# What one access of a push or a pop comes to

The threads that use a ring run their calls one access at a time, and every
argument about them asks the same of an access: whether the call is over, with
which result, and otherwise how much nearer it is to its store.  `PushMove` and
`PopMove` list the answers once.  A thread decides where it goes by the result,
and the ranks of whole threads are built on the ranks of the accesses.
-/

namespace Candlestore.Spsc

variable {c : Capacity} {α : Type}

/-! ## Pushes -/

/-- What an access of a push tells its caller. -/
inductive PushResult where
  | running
  /-- The attempt found the ring full. -/
  | full
  | pushed
  | cancelled
  deriving DecidableEq, Repr

/-- The result of the next access of a push. -/
def pushResult (s : State c α) : PushPc → PushResult
  | .loadHead => .running
  | .loadTail head => if c.word ≤ head - s.channel.tail then .full else .running
  | .write _ => .running
  | .storeHead _ => .pushed
  | .countFull => .running
  | .checkCancel => if s.cancel then .cancelled else .running

/-- How far an access is from the `head` store, if there is room. -/
def PushPc.rank : PushPc → Nat
  | .countFull => 5
  | .checkCancel => 5
  | .loadHead => 4
  | .loadTail _ => 3
  | .write _ => 2
  | .storeHead _ => 1

/-- The accesses of an attempt, without those of the loop around it. -/
def PushPc.inAttempt : PushPc → Bool
  | .countFull => false
  | .checkCancel => false
  | _ => true

theorem PushPc.rank_pos (pc : PushPc) : 0 < pc.rank := by
  cases pc <;> exact Nat.succ_pos _

/-- Everything an access of a push can do. -/
inductive PushMove (s : State c α) (kind : PushKind) (item : α) (stalled : Bool)
    (start : WriterView c α) (pc : PushPc) : PushResult → State c α → Prop where
  | nearer {t : State c α} (pc' : PushPc) :
      t.producer = .running kind item stalled start pc' →
      t.channel.pushed = s.channel.pushed → pc.inAttempt = true → pc'.inAttempt = true →
      pc'.rank < pc.rank → PushMove s kind item stalled start pc .running t
  | full {t : State c α} (head : UInt64) : pc = .loadTail head →
      c.word ≤ head - s.channel.tail → t.producer = afterFull kind item stalled start →
      t.channel.pushed = s.channel.pushed → PushMove s kind item stalled start pc .full t
  | pushed {t : State c α} : t.producer = .idle →
      t.channel.pushed = s.channel.pushed ++ [item] →
      PushMove s kind item stalled start pc .pushed t
  | counted {t : State c α} : pc = .countFull →
      t.producer = .running kind item true start .loadHead →
      t.channel.pushed = s.channel.pushed →
      PushMove s kind item stalled start pc .running t
  | resumed {t : State c α} : pc = .checkCancel → s.cancel = false →
      t.producer = .running kind item stalled start .loadHead →
      t.channel.pushed = s.channel.pushed →
      PushMove s kind item stalled start pc .running t
  | cancelled {t : State c α} :
      pc = .checkCancel → s.cancel = true → t.producer = .idle →
      t.channel.pushed = s.channel.pushed →
      PushMove s kind item stalled start pc .cancelled t

theorem pushStep_move (s : State c α) (kind : PushKind) (item : α) (stalled : Bool)
    (start : WriterView c α) (pc : PushPc) :
    PushMove s kind item stalled start pc (pushResult s pc)
      (pushStep s kind item stalled start pc) := by
  cases pc with
  | loadHead => exact .nearer _ rfl rfl rfl rfl (Nat.lt_succ_self _)
  | loadTail head =>
      rw [pushStep, pushResult]
      by_cases hfull : c.word ≤ head - s.channel.tail
      · rw [if_pos hfull, if_pos hfull]
        exact .full head rfl hfull rfl rfl
      · rw [if_neg hfull, if_neg hfull]
        exact .nearer _ rfl rfl rfl rfl (Nat.lt_succ_self _)
  | write head => exact .nearer _ rfl rfl rfl rfl (Nat.lt_succ_self _)
  | storeHead head => exact .pushed rfl rfl
  | countFull => exact .counted rfl rfl rfl
  | checkCancel =>
      rw [pushStep, pushResult]
      cases hcancel : s.cancel with
      | true => exact .cancelled rfl hcancel rfl rfl
      | false => exact .resumed rfl hcancel rfl rfl

/-- An access of a push leaves the reader and what it has popped alone. -/
theorem pushStep_frame (s : State c α) (kind : PushKind) (item : α) (stalled : Bool)
    (start : WriterView c α) (pc : PushPc) :
    (pushStep s kind item stalled start pc).consumer = s.consumer ∧
      (pushStep s kind item stalled start pc).channel.popped = s.channel.popped := by
  cases pc with
  | loadTail head | checkCancel =>
      rw [pushStep]
      split <;> exact ⟨rfl, rfl⟩
  | loadHead | write | storeHead | countFull => exact ⟨rfl, rfl⟩

theorem pushStep_cancel (s : State c α) (kind : PushKind) (item : α) (stalled : Bool)
    (start : WriterView c α) (pc : PushPc) :
    (pushStep s kind item stalled start pc).cancel = s.cancel := by
  cases pc with
  | loadTail head | checkCancel =>
      rw [pushStep]
      split <;> rfl
  | loadHead | write | storeHead | countFull => rfl

/-- A blocking push that finds the ring full goes on. -/
theorem afterFull_blocking {kind : PushKind} (hkind : kind ≠ .tryPush) (item : α)
    (stalled : Bool) (start : WriterView c α) :
    ∃ pc, afterFull kind item stalled start = .running kind item stalled start pc := by
  cases kind with
  | tryPush => exact absurd rfl hkind
  | spscPush => exact ⟨_, rfl⟩
  | shmPush | pushUntil => cases stalled <;> exact ⟨_, rfl⟩

/-- A `try_push` in progress stays one until it returns. -/
theorem PushMove.kind {s t : State c α} {item : α} {stalled : Bool}
    {start : WriterView c α} {pc : PushPc} {result : PushResult}
    (hmove : PushMove s .tryPush item stalled start pc result t) {kind : PushKind}
    {item' : α} {stalled' : Bool} {start' : WriterView c α} {pc' : PushPc}
    (h : t.producer = .running kind item' stalled' start' pc') : kind = .tryPush := by
  cases hmove with
  | nearer _ hproducer | counted _ hproducer | resumed _ _ hproducer =>
      cases hproducer.symm.trans h
      rfl
  | full _ _ _ hproducer | pushed hproducer | cancelled _ _ hproducer =>
      cases hproducer.symm.trans h

/-! ## Pops -/

/-- What an access of a pop tells its caller. -/
inductive PopResult (α : Type) where
  | running
  /-- The attempt found nothing. -/
  | empty
  | popped (item : α)
  deriving DecidableEq, Repr

/-- The result of the next access of a pop. -/
def popResult (s : State c α) : PopPc α → PopResult α
  | .loadHead tail => if s.channel.head = tail then .empty else .running
  | .storeTail _ item => .popped item
  | _ => .running

/-- How far an access is from the `tail` store, if something is in flight. -/
def PopPc.rank : PopPc α → Nat
  | .loadTail => 4
  | .loadHead _ => 3
  | .read _ => 2
  | .storeTail _ _ => 1

/-- Everything an access of a pop can do. -/
inductive PopMove (s : State c α) (reader : Reader c) (kind : PopKind) (pc : PopPc α) :
    PopResult α → State c α → Prop where
  | nearer {t : State c α} (pc' : PopPc α) : t.consumer = .running reader kind pc' →
      t.channel = s.channel → pc'.rank < pc.rank → PopMove s reader kind pc .running t
  | empty {t : State c α} (tail : UInt64) : pc = .loadHead tail → s.channel.head = tail →
      t.consumer = afterEmpty reader kind → t.channel = s.channel →
      PopMove s reader kind pc .empty t
  | popped {t : State c α} (tail : UInt64) (item : α) : pc = .storeTail tail item →
      t.consumer = .idle reader → t.channel = s.channel.storeTail tail item →
      PopMove s reader kind pc (.popped item) t

theorem popStep_move (s : State c α) (reader : Reader c) (kind : PopKind)
    (pc : PopPc α) :
    PopMove s reader kind pc (popResult s pc) (popStep s reader kind pc) := by
  cases pc with
  | loadTail => exact .nearer _ rfl rfl (Nat.lt_succ_self _)
  | loadHead tail =>
      rw [popStep, popResult]
      by_cases hempty : s.channel.head = tail
      · rw [if_pos hempty, if_pos hempty]
        exact .empty tail rfl hempty rfl rfl
      · rw [if_neg hempty, if_neg hempty]
        exact .nearer _ rfl rfl (Nat.lt_succ_self _)
  | read tail => exact .nearer _ rfl rfl (Nat.lt_succ_self _)
  | storeTail tail item => exact .popped tail item rfl rfl rfl

/-- An access of a pop leaves the writer and what it has pushed alone. -/
theorem popStep_frame (s : State c α) (reader : Reader c) (kind : PopKind)
    (pc : PopPc α) :
    (popStep s reader kind pc).producer = s.producer ∧
      (popStep s reader kind pc).channel.pushed = s.channel.pushed := by
  cases pc with
  | loadHead tail =>
      rw [popStep]
      split <;> exact ⟨rfl, rfl⟩
  | loadTail | read | storeTail => exact ⟨rfl, rfl⟩

theorem popStep_cancel (s : State c α) (reader : Reader c) (kind : PopKind)
    (pc : PopPc α) : (popStep s reader kind pc).cancel = s.cancel := by
  cases pc with
  | loadHead tail =>
      rw [popStep]
      split <;> rfl
  | loadTail | read | storeTail => rfl

/-- A `try_pop` in progress stays one until it returns. -/
theorem PopMove.kind {s t : State c α} {reader reader' : Reader c} {pc pc' : PopPc α}
    {result : PopResult α} (hmove : PopMove s reader .tryPop pc result t)
    {kind : PopKind} (h : t.consumer = .running reader' kind pc') : kind = .tryPop := by
  cases hmove with
  | nearer _ hconsumer =>
      cases hconsumer.symm.trans h
      rfl
  | empty _ _ _ hconsumer | popped _ _ _ hconsumer => cases hconsumer.symm.trans h

end Candlestore.Spsc
