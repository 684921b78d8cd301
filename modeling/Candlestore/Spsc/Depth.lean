import Candlestore.Spsc.Fifo

/-!
# The depth of the ring, read by an observer

`ShmRingReader::depth` loads `head` and then `tail` and returns their wrapping
difference.  It may run on any thread, so the two loads may fall anywhere among the
steps of the producer and the consumer.  Between them the consumer may pop items that
were pushed after the `head` load; each `Reading` keeps the two counts that decide
what the difference comes to.
-/

namespace Candlestore.Spsc

open Lib

variable {c : Capacity} {α : Type}

/-- A value `depth` returned, with the items pushed by its `head` load and those popped
by its `tail` load. -/
structure Reading where
  value : UInt64
  pushed : Nat
  popped : Nat
  deriving DecidableEq, Repr

/-- The next load of the observer. -/
inductive Observer where
  | loadHead
  | loadTail (head : UInt64) (pushed : Nat)
  deriving DecidableEq, Repr

/-- A ring, the observer of its depth and what it has read so far. -/
structure Watched (c : Capacity) (α : Type) where
  ring : State c α
  observer : Observer
  readings : List Reading

/-- A step of the ring or a load of the observer. -/
inductive WatchAction (α : Type) where
  | ring (a : Action α)
  | observer

/-- The observer loads `head`, then `tail`, and takes the difference. -/
def watchStep (w : Watched c α) : WatchAction α → Option (Watched c α)
  | .ring a => (step w.ring a).map fun ring => { w with ring }
  | .observer =>
      match w.observer with
      | .loadHead =>
          some { w with
            observer := .loadTail w.ring.channel.head w.ring.channel.pushed.length }
      | .loadTail head pushed =>
          some { w with
            observer := .loadHead
            readings := w.readings ++
              [⟨head - w.ring.channel.tail, pushed, w.ring.channel.popped.length⟩] }

/-- A new ring that nobody has looked at. -/
def Watched.start (slots : Fin c.size → α) (reader : Option (Reader c)) :
    Watched c α where
  ring := .start slots reader
  observer := .loadHead
  readings := []

/-- How many of the popped items were pushed after the `head` load. -/
def Reading.overtaken (r : Reading) : Nat := r.popped - r.pushed

theorem popStep_popped (s : State c α) (reader : Reader c) (kind : PopKind)
    (pc : PopPc α) :
    s.channel.popped.length ≤ (popStep s reader kind pc).channel.popped.length := by
  cases pc with
  | loadHead tail =>
      rw [popStep]
      split <;> exact Nat.le_refl _
  | loadTail | read => exact Nat.le_refl _
  | storeTail tail item =>
      show _ ≤ (s.channel.popped ++ [item]).length
      rw [List.length_append]
      exact Nat.le_add_right _ _

/-- Nothing is ever un-popped. -/
theorem step_popped {s t : State c α} {a : Action α} (hstep : step s a = some t) :
    s.channel.popped.length ≤ t.channel.popped.length := by
  cases a with
  | producer =>
      simp only [step] at hstep
      split at hstep
      · cases hstep
      · cases hstep
        exact Nat.le_of_eq (congrArg List.length (pushStep_frame s _ _ _ _ _).2.symm)
  | consumer =>
      simp only [step] at hstep
      split at hstep
      · cases hstep
        exact popStep_popped s _ _ _
      · cases hstep
  | callPush | openReader | closeReader | callPop =>
      simp only [step] at hstep
      split at hstep <;> first | (cases hstep; exact Nat.le_refl _) | cases hstep
  | setCancel =>
      cases hstep
      exact Nat.le_refl _

/-- A `head` value loaded earlier is a true count, at most a capacity ahead of the
items popped since. -/
def ObserverOk (ch : Channel c α) : Observer → Prop
  | .loadHead => True
  | .loadTail head pushed =>
      head = UInt64.ofNat pushed ∧ pushed ≤ ch.popped.length + c.size

/-- A reading is the difference of two true counts. -/
structure Reading.Ok (c : Capacity) (r : Reading) : Prop where
  value_eq : r.value = UInt64.ofNat r.pushed - UInt64.ofNat r.popped
  near : r.pushed ≤ r.popped + c.size

/-- The ring is in order, and so are the readings. -/
structure WatchInv (w : Watched c α) : Prop where
  ring : Inv w.ring
  observer : ObserverOk w.ring.channel w.observer
  readings : ∀ r ∈ w.readings, r.Ok c

theorem ObserverOk.mono {s t : Channel c α} (hle : s.popped.length ≤ t.popped.length)
    {o : Observer} (h : ObserverOk s o) : ObserverOk t o := by
  cases o with
  | loadHead => trivial
  | loadTail head pushed => exact ⟨h.1, h.2.trans (Nat.add_le_add_right hle _)⟩

theorem WatchInv.start (slots : Fin c.size → α) (reader : Option (Reader c)) :
    WatchInv (Watched.start slots reader) where
  ring := .start slots reader
  observer := trivial
  readings := fun _ h => by cases h

theorem WatchInv.step {w v : Watched c α} (h : WatchInv w) {a : WatchAction α}
    (hstep : watchStep w a = some v) : WatchInv v := by
  cases a with
  | ring a =>
      obtain ⟨ring, hring, rfl⟩ := Option.map_eq_some_iff.1 hstep
      exact { h with
        ring := h.ring.step hring
        observer := h.observer.mono (step_popped hring) }
  | observer =>
      have hobserver := h.observer
      simp only [watchStep] at hstep
      split at hstep
      · cases hstep
        exact { h with observer := ⟨h.ring.channel.head_eq, h.ring.channel.bounded⟩ }
      · next head pushed ho =>
        cases hstep
        rw [ho] at hobserver
        obtain ⟨rfl, hnear⟩ := hobserver
        refine { h with observer := trivial, readings := ?_ }
        intro r hr
        rcases List.mem_append.1 hr with hold | hnew
        · exact h.readings r hold
        · rw [List.mem_singleton.1 hnew]
          exact ⟨congrArg (UInt64.ofNat pushed - ·) h.ring.channel.tail_eq, hnear⟩

/-- In every run, a returned depth is within the capacity exactly if the consumer did not
overtake the loaded `head` by the time of the `tail` load, or has by then gone around
the whole 64-bit counter again, to within the capacity. -/
theorem depth_le_capacity_iff (slots : Fin c.size → α) (reader : Option (Reader c))
    (as : List (WatchAction α)) (w : Watched c α)
    (hrun : exec watchStep (Watched.start slots reader) as = some w) :
    ∀ r ∈ w.readings, r.value ≤ c.word ↔
      r.overtaken % 2 ^ 64 = 0 ∨ 2 ^ 64 ≤ r.overtaken % 2 ^ 64 + c.size := by
  intro r hr
  have hinv : WatchInv w :=
    exec_invariant (fun _ _ _ h hstep => h.step hstep) hrun (.start slots reader)
  obtain ⟨hvalue, hnear⟩ := hinv.readings r hr
  rw [UInt64.le_iff_toNat_le, hvalue]
  exact toNat_counter_sub_le_iff hnear c.size_lt

/-- Two items are in a ring of four at the `head` load; one of them is popped and a third
is pushed before the `tail` load. -/
theorem depth_le_capacity_iff_two_items :
    let c : Capacity := ⟨4, by decide⟩
    let push (item : Nat) : List (WatchAction Nat) :=
      (.callPush .tryPush item :: List.replicate 4 .producer).map .ring
    let pop : List (WatchAction Nat) :=
      (.callPop .tryPop :: List.replicate 4 .consumer).map .ring
    let as := push 7 ++ push 8 ++ [.observer] ++ pop ++ push 9 ++ [.observer]
    ∃ w, exec watchStep (Watched.start (c := c) (fun _ => 0) (some ⟨4, rfl⟩)) as =
      some w ∧
      w.readings = [⟨1, 2, 1⟩] ∧ ∀ r ∈ w.readings, r.value ≤ c.word := by
  intro c push pop as
  obtain ⟨w, hrun, hw⟩ := exists_exec watchStep
    (Watched.start (c := c) (fun _ => 0) (some ⟨4, rfl⟩)) as
    (fun w => w.readings = [⟨1, 2, 1⟩]) (by decide +kernel)
  have hreadings := of_decide_eq_true hw
  refine ⟨w, hrun, hreadings, ?_⟩
  intro r hr
  refine (depth_le_capacity_iff _ _ _ _ hrun r hr).2 (.inl ?_)
  rw [hreadings] at hr
  rw [List.mem_singleton.1 hr]
  rfl

/-- The observer loads `head` from an empty ring of four; an item is pushed and popped;
the observer loads `tail`. -/
theorem depth_wraps :
    let c : Capacity := ⟨4, by decide⟩
    let push : List (WatchAction Nat) :=
      (.callPush .tryPush 7 :: List.replicate 4 .producer).map .ring
    let pop : List (WatchAction Nat) :=
      (.callPop .tryPop :: List.replicate 4 .consumer).map .ring
    ∃ w, exec watchStep (Watched.start (c := c) (fun _ => 0) (some ⟨4, rfl⟩))
        ([.observer] ++ push ++ pop ++ [.observer]) = some w ∧
      w.readings = [⟨UInt64.ofNat (2 ^ 64 - 1), 0, 1⟩] ∧
      ∃ r ∈ w.readings, c.word < r.value := by
  intro c push pop
  obtain ⟨w, hrun, hw⟩ := exists_exec watchStep
    (Watched.start (c := c) (fun _ => 0) (some ⟨4, rfl⟩))
    ([.observer] ++ push ++ pop ++ [.observer])
    (fun w => w.readings = [⟨UInt64.ofNat (2 ^ 64 - 1), 0, 1⟩] ∧ ∃ r ∈ w.readings,
      c.word < r.value) (by decide +kernel)
  exact ⟨w, hrun, of_decide_eq_true hw⟩

end Candlestore.Spsc
