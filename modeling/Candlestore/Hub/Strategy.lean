import Candlestore.Hub.Sma
import Candlestore.Lib.System
import Candlestore.Matching.Order
import Candlestore.Spsc.Ingest

/-!
# The strategy's averages

The strategy thread waits for the version of the store to change, reads the
newest candles of its symbol and folds those it has not seen into two rolling
averages.  Until it is warm it fetches a window of `long_p + 1` candles; after
that only the newest one.  A run interleaves it with the appends of one ingester
under strictly increasing timestamps.

The candles folded so far need not be the stream: whatever arrives between two
reads beyond what one read fetches is skipped.  `Kept` says how far the folded
candles agree with the stream at its end, and `paced` on which reads nothing that
matters is skipped.
-/

namespace Candlestore.Hub

open Lib Matching Spsc

/-- `i64::MIN`. -/
def i64Min : Int := -2 ^ 63

/-- The local variables of the strategy loop. -/
structure Strategy (F : Type) where
  shortSma : RollingSma F
  longSma : RollingSma F
  candlesSeen : Nat
  lastCandleTs : Int
  prevShort : Option F
  prevLong : Option F

/-- The four averages a crossover is looked for in. -/
structure Evaluation (F : Type) where
  prevShort : F
  prevLong : F
  currShort : F
  currLong : F
  deriving DecidableEq, Repr

section Model

variable {F : Type} [F64 F]

/-- A golden cross buys and a death cross sells. -/
def Evaluation.side (e : Evaluation F) : Option Side :=
  if e.prevShort ≤ e.prevLong ∧ e.currLong < e.currShort then some .buy
  else if e.prevLong ≤ e.prevShort ∧ e.currShort < e.currLong then some .sell
  else none

namespace Strategy

/-- A strategy that has seen no candle. -/
def new (shortP longP : Nat) : Strategy F where
  shortSma := .new shortP
  longSma := .new longP
  candlesSeen := 0
  lastCandleTs := i64Min
  prevShort := none
  prevLong := none

/-- One candle into both averages. -/
def push (st : Strategy F) (c : Candle F) : Strategy F :=
  { st with
    shortSma := st.shortSma.push c.close
    longSma := st.longSma.push c.close
    candlesSeen := st.candlesSeen + 1
    lastCandleTs := c.ts }

/-- The body of the warm-up loop. -/
def pushNew (st : Strategy F) (c : Candle F) : Strategy F :=
  if st.lastCandleTs < c.ts then st.push c else st

/-- The fetch of one iteration.  The flag says whether the iteration goes on to
look for a crossover. -/
def fetch (minCandles : Nat) (lastN : Nat → List (Candle F)) (st : Strategy F) :
    Strategy F × Bool :=
  if st.candlesSeen < minCandles then
    let st := (lastN minCandles).foldl pushNew st
    (st, decide (minCandles ≤ st.candlesSeen))
  else
    match (lastN 1).getLast? with
    | some c => if c.ts ≤ st.lastCandleTs then (st, false) else (st.push c, true)
    | none => (st, false)

/-- The four averages, if all are there. -/
def evaluation (st : Strategy F) : Option (Evaluation F) :=
  match st.prevShort, st.prevLong, st.shortSma.value, st.longSma.value with
  | some ps, some pl, some cs, some cl => some ⟨ps, pl, cs, cl⟩
  | _, _, _, _ => none

/-- The current averages become the previous ones. -/
def advance (st : Strategy F) : Strategy F :=
  { st with prevShort := st.shortSma.value, prevLong := st.longSma.value }

end Strategy

/-- The store of one symbol with its ingester and the strategy.  `given` are the
candles appended so far; with `unpublished` the latest one is in the ring and the
version is not bumped yet.  `evaluations` keeps each crossover evaluation with
the ring as of the read before it. -/
structure Desk (F : Type) where
  store : Store F
  given : List (Candle F)
  unpublished : Bool
  signals : Nat
  strategy : Strategy F
  lastSeen : Nat
  woken : Bool
  evaluations : List (Evaluation F × List (Candle F))

namespace Desk

/-- An empty store, and a strategy that waits for its first version. -/
def start (shortP longP : Nat) : Desk F where
  store := .new
  given := []
  unpublished := false
  signals := 0
  strategy := .new shortP longP
  lastSeen := 0
  woken := false
  evaluations := []

/-- What a load of the version counter returns. -/
def version (d : Desk F) : Nat := d.store.version - d.unpublished.toNat + d.signals

/-- The rest of an iteration after `wait_for_change` returned. -/
def iterate (symbol : Symbol) (longP : Nat) (d : Desk F) : Desk F :=
  let (st, warm) := d.strategy.fetch (longP + 1) (d.store.lastN symbol)
  if warm then
    { d with
      woken := false
      strategy := st.advance
      evaluations := d.evaluations ++ st.evaluation.toList.map
        (·, hotRows d.store symbol) }
  else { d with woken := false, strategy := st }

end Desk

/-- The steps of the ingester and of the strategy. -/
inductive DeskAct (F : Type) where
  /-- The ingester pushes a candle, with the outcome of a spill. -/
  | append (c : Candle F) (io : SpillIo)
  /-- The append bumps the version. -/
  | publish
  /-- `signal_waiters`. -/
  | signal
  /-- One load of `wait_for_change`. -/
  | poll
  /-- The strategy reads the store and finishes the iteration. -/
  | read

/-- One such step.  Timestamps increase, as those of the feed do. -/
def deskStep (cfg : Config) (symbol : Symbol) (longP : Nat) (d : Desk F) :
    DeskAct F → Option (Desk F)
  | .append c io =>
      if d.unpublished = false ∧ ∀ x ∈ d.given, x.ts < c.ts then
        (d.store.tryAppend cfg symbol c io).map fun r =>
          { d with store := r.1, given := d.given ++ [c], unpublished := c.isValid }
      else none
  | .publish => if d.unpublished then some { d with unpublished := false } else none
  | .signal => some { d with signals := d.signals + 1 }
  | .poll =>
      if d.woken then none
      else if d.version = d.lastSeen then some d
      else some { d with lastSeen := d.version, woken := true }
  | .read => if d.woken then some (d.iterate symbol longP) else none

/-- The candles accepted since the strategy's last read. -/
def Desk.fresh (d : Desk F) : List (Candle F) :=
  (validOf d.given).filter fun c => d.strategy.lastCandleTs < c.ts

/-- A warm strategy reads before a second candle has arrived, and one that is
warming up does not skip candles that its short average reaches back to. -/
def paced (shortP longP : Nat) (d : Desk F) : DeskAct F → Bool
  | .read =>
      if d.strategy.candlesSeen < longP + 1 then
        decide (shortP ≤ longP + 1 ∨ d.strategy.candlesSeen = 0 ∨
          d.fresh.length ≤ longP + 1)
      else decide (d.fresh.length ≤ 1)
  | _ => true

end Model

/-- The mean of the closes of the newest `n` candles. -/
def meanClose (n : Nat) (ring : List (Candle ℚ)) : ℚ :=
  ((ring.rtake n).map Candle.close).sum / n

/-- The current averages are those of the newest candles in the ring. -/
def Evaluation.OfRing (shortP longP : Nat) (e : Evaluation ℚ) (ring : List (Candle ℚ)) :
    Prop :=
  (shortP ≤ ring.length ∧ e.currShort = meanClose shortP ring) ∧
    longP ≤ ring.length ∧ e.currLong = meanClose longP ring

instance (shortP longP : Nat) (e : Evaluation ℚ) (ring : List (Candle ℚ)) :
    Decidable (e.OfRing shortP longP ring) :=
  inferInstanceAs (Decidable (_ ∧ _))

/-- Two candles arrive between two reads of a warm strategy, which then takes the
second of them for the successor of the last one it saw. -/
theorem skipped_candle_misaveraged :
    let cfg : Config := ⟨1, 3, false, fun _ => false⟩
    let append (ts : Int) (price : ℚ) : List (DeskAct ℚ) :=
      [.append (flatCandle ts price) .ok, .publish]
    let acts := append 1 1 ++ append 2 1 ++ append 3 1 ++ [.poll, .read] ++
      append 4 10 ++ append 5 20 ++ [.poll, .read]
    2 + 1 ≤ cfg.ringCapacity ∧
      ∃ d, exec (deskStep cfg ['A'] 2) (Desk.start 1 2) acts = some d ∧
        ∃ p ∈ d.evaluations, p.2.map Candle.close = [1, 10, 20] ∧
          p.1.currLong = 21 / 2 ∧ meanClose 2 p.2 = 15 := by
  intro cfg append acts
  obtain ⟨d, hrun, hd⟩ := exists_exec (deskStep cfg ['A'] 2) (Desk.start 1 2) acts
    (fun d => ∃ p ∈ d.evaluations, p.2.map Candle.close = [1, 10, 20] ∧
      p.1.currLong = 21 / 2 ∧ meanClose 2 p.2 = 15) (by decide +kernel)
  exact ⟨Nat.le_refl 3, d, hrun, of_decide_eq_true hd⟩

/-! ## What has been folded -/

variable {shortP longP : Nat} {st : Strategy ℚ} {folded seen later : List (Candle ℚ)}

/-- The strategy has folded these candles, oldest first. -/
structure Folded (shortP longP : Nat) (st : Strategy ℚ) (folded : List (Candle ℚ)) :
    Prop where
  short : st.shortSma.Holds (folded.map Candle.close)
  long : st.longSma.Holds (folded.map Candle.close)
  shortPeriod : st.shortSma.period = shortP
  longPeriod : st.longSma.period = longP
  count : st.candlesSeen = folded.length

namespace Folded

theorem new : Folded shortP longP (Strategy.new shortP longP) [] :=
  ⟨.new shortP, .new longP, rfl, rfl, rfl⟩

theorem push (h : Folded shortP longP st folded) (c : Candle ℚ) :
    Folded shortP longP (st.push c) (folded ++ [c]) where
  short := by
    rw [List.map_append]
    exact h.short.push c.close
  long := by
    rw [List.map_append]
    exact h.long.push c.close
  shortPeriod := (RollingSma.period_push _ _).trans h.shortPeriod
  longPeriod := (RollingSma.period_push _ _).trans h.longPeriod
  count := by
    rw [List.length_append, List.length_singleton, ← h.count]
    rfl

theorem foldl_push (h : Folded shortP longP st folded) (new : List (Candle ℚ)) :
    Folded shortP longP (new.foldl Strategy.push st) (folded ++ new) := by
  induction new generalizing st folded with
  | nil => rwa [List.append_nil]
  | cons c new ih =>
      rw [List.append_cons]
      exact ih (h.push c)

end Folded

theorem lastCandleTs_foldl_push (st : Strategy ℚ) (new : List (Candle ℚ)) :
    (new.foldl Strategy.push st).lastCandleTs =
      (new.getLast?.map Candle.ts).getD st.lastCandleTs := by
  induction new using List.reverseRecOn with
  | nil => rfl
  | append_singleton new c _ =>
      rw [List.foldl_append, List.getLast?_concat]
      rfl

/-- In a list of increasing timestamps the warm-up loop folds what is newer than
the last candle it saw before. -/
theorem foldl_pushNew {candles : List (Candle ℚ)}
    (hinc : candles.Pairwise fun x y => x.ts < y.ts) (st : Strategy ℚ) :
    candles.foldl Strategy.pushNew st =
      (candles.filter fun c => st.lastCandleTs < c.ts).foldl Strategy.push st := by
  induction candles generalizing st with
  | nil => rfl
  | cons c candles ih =>
      rw [List.pairwise_cons] at hinc
      rw [List.foldl_cons, ih hinc.2, Strategy.pushNew]
      split
      · next hnew =>
          have hall : ∀ x ∈ candles, decide (st.lastCandleTs < x.ts) = true :=
            fun x hx => decide_eq_true (Int.lt_trans hnew (hinc.1 x hx))
          have hrest : ∀ x ∈ candles, decide ((st.push c).lastCandleTs < x.ts) = true :=
            fun x hx => decide_eq_true (hinc.1 x hx)
          rw [List.filter_cons, if_pos (decide_eq_true hnew), List.filter_eq_self.2 hall,
            List.filter_eq_self.2 hrest, List.foldl_cons]
      · next hold => rw [List.filter_cons, if_neg (by simpa using hold)]

/-! ## How far the folded candles agree with the stream -/

/-- The strategy when the feed was last read.  `seen` is the feed up to that
read. -/
structure Kept (shortP longP : Nat) (st : Strategy ℚ) (seen folded : List (Candle ℚ)) :
    Prop where
  averages : Folded shortP longP st folded
  last : st.lastCandleTs = (seen.getLast?.map Candle.ts).getD i64Min
  agree : AgreeUpTo (max (longP + 1) shortP) folded seen

/-- The accepted candles: increasing timestamps, none of them negative. -/
structure Feed (candles : List (Candle ℚ)) : Prop where
  increasing : candles.Pairwise fun x y => x.ts < y.ts
  nonneg : ∀ c ∈ candles, 0 ≤ c.ts

theorem feed_validOf {given : List (Candle ℚ)}
    (hinc : given.Pairwise fun x y => x.ts < y.ts) : Feed (validOf given) where
  increasing := hinc.filter _
  nonneg := by
    intro c hc
    have hvalid := (List.mem_filter.1 hc).2
    simp only [Candle.isValid, Bool.and_eq_true, decide_eq_true_eq] at hvalid
    exact hvalid.1.1.1.1.1

/-- The last timestamp that was read divides the feed at that read. -/
theorem Feed.divides (hfeed : Feed (seen ++ later))
    (hlast : st.lastCandleTs = (seen.getLast?.map Candle.ts).getD i64Min) :
    (∀ c ∈ seen, ¬st.lastCandleTs < c.ts) ∧ ∀ c ∈ later, st.lastCandleTs < c.ts := by
  obtain ⟨hseen, _, hlater⟩ := List.pairwise_append.1 hfeed.increasing
  rcases List.eq_nil_or_concat seen with rfl | ⟨init, x, rfl⟩
  · refine ⟨(fun _ hc => by cases hc), ?_⟩
    intro c hc
    have hnonneg := hfeed.nonneg c hc
    rw [hlast]
    show -2 ^ 63 < c.ts
    omega
  · rw [List.concat_eq_append] at *
    rw [List.getLast?_concat] at hlast
    change st.lastCandleTs = x.ts at hlast
    rw [hlast]
    refine ⟨?_, fun c hc => hlater x (by simp) c hc⟩
    intro c hc
    rcases List.mem_append.1 hc with hinit | htop
    · have hlt := (List.pairwise_append.1 hseen).2.2 c hinit x
        (List.mem_singleton_self x)
      omega
    · rw [List.mem_singleton.1 htop]
      exact Int.lt_irrefl _

namespace Kept

theorem new : Kept shortP longP (Strategy.new shortP longP) [] [] :=
  ⟨Folded.new, rfl, AgreeUpTo.nil⟩

/-- Of the newest `m` candles the strategy has not seen those that came after the
last read. -/
theorem filter_rtake (h : Kept shortP longP st seen folded)
    (hfeed : Feed (seen ++ later)) (m : Nat) :
    ((seen ++ later).rtake m).filter (fun c => st.lastCandleTs < c.ts) =
      later.rtake m := by
  obtain ⟨hseen, hlater⟩ := hfeed.divides h.last
  have hkeep : ∀ c ∈ later, decide (st.lastCandleTs < c.ts) = true := fun c hc =>
    decide_eq_true (hlater c hc)
  rcases Nat.le_total m later.length with hle | hge
  · rw [rtake_append_of_le hle, List.filter_eq_self]
    exact fun c hc => hkeep c (List.mem_of_mem_drop hc)
  · have hdrop : (seen.rtake (m - later.length)).filter
        (fun c => st.lastCandleTs < c.ts) = [] :=
      List.filter_eq_nil_iff.2
        fun c hc => by simpa using hseen c (List.mem_of_mem_drop hc)
    rw [rtake_append_of_ge hge, List.filter_append, hdrop, List.filter_eq_self.2 hkeep,
      rtake_of_length_le hge, List.nil_append]

/-- The feed is read up to its end and `new` is folded. -/
theorem read (h : Kept shortP longP st seen folded) {new : List (Candle ℚ)}
    (hlast : new.getLast? = later.getLast?)
    (hagree : AgreeUpTo (max (longP + 1) shortP) (folded ++ new) (seen ++ later)) :
    Kept shortP longP (new.foldl Strategy.push st) (seen ++ later) (folded ++ new) where
  averages := h.averages.foldl_push new
  last := by
    rw [lastCandleTs_foldl_push, hlast, h.last, List.getLast?_append]
    cases later.getLast? <;> rfl
  agree := hagree

/-- A read during the warm-up. -/
theorem warmUp (h : Kept shortP longP st seen folded) (hfeed : Feed (seen ++ later))
    (hpaced : shortP ≤ longP + 1 ∨ st.candlesSeen = 0 ∨ later.length ≤ longP + 1) :
    ∃ folded', Kept shortP longP
      (((seen ++ later).rtake (longP + 1)).foldl Strategy.pushNew st)
      (seen ++ later) folded' := by
  have hinc : ((seen ++ later).rtake (longP + 1)).Pairwise fun x y => x.ts < y.ts :=
    hfeed.increasing.sublist (List.drop_sublist _ _)
  rw [foldl_pushNew hinc, h.filter_rtake hfeed]
  refine ⟨_, h.read (getLast?_rtake later (Nat.succ_pos longP)) ?_⟩
  by_cases hall : later.length ≤ longP + 1
  · rw [rtake_of_length_le hall]
    exact h.agree.append later
  · refine h.agree.append_rtake (by omega) ?_
    rcases hpaced with hshort | hzero | hlen
    · exact Or.inl (by omega)
    · rw [h.averages.count] at hzero
      exact Or.inr (List.length_eq_zero_iff.1 hzero)
    · exact absurd hlen hall

/-- A read of the newest candle only. -/
theorem follow (h : Kept shortP longP st seen folded) (hfeed : Feed (seen ++ later))
    (hpaced : later.length ≤ 1) {lastN : Nat → List (Candle ℚ)}
    (hread : lastN 1 = (seen ++ later).rtake 1) (hwarm : ¬st.candlesSeen < longP + 1) :
    ∃ folded', Kept shortP longP (st.fetch (longP + 1) lastN).1
      (seen ++ later) folded' := by
  obtain ⟨hseen, hlater⟩ := hfeed.divides h.last
  rw [Strategy.fetch, if_neg hwarm, hread, getLast?_rtake _ Nat.one_pos]
  cases later with
  | nil =>
      rw [List.append_nil]
      cases hnewest : seen.getLast? with
      | none => exact ⟨folded, h⟩
      | some c =>
          have hold := hseen c (List.mem_of_getLast? hnewest)
          exact ⟨folded, by simpa only [if_pos (Int.not_lt.1 hold)] using h⟩
  | cons c rest =>
      obtain rfl : rest = [] :=
        List.length_eq_zero_iff.1 (Nat.le_zero.1 (Nat.le_of_succ_le_succ hpaced))
      have hnew := hlater c (List.mem_singleton_self c)
      rw [List.getLast?_concat]
      simp only [if_neg (Int.not_le.2 hnew)]
      exact ⟨folded ++ [c], h.read rfl (h.agree.append [c])⟩

/-- An average that is there is the one of the feed, as far as the ring reaches. -/
theorem mean (h : Kept shortP longP st seen folded) (cap : Nat) {sma : RollingSma ℚ}
    {v : ℚ} (hsma : sma.Holds (folded.map Candle.close)) (hcap : sma.period ≤ cap)
    (hdepth : sma.period ≤ max (longP + 1) shortP) (hvalue : sma.value = some v) :
    sma.period ≤ (seen.rtake cap).length ∧
      v = meanClose sma.period (seen.rtake cap) := by
  obtain ⟨_, hlen, hv⟩ := hsma.value hvalue
  rw [List.length_map] at hlen
  have hle := h.agree.length_le
  refine ⟨?_, ?_⟩
  · rw [length_rtake]
    omega
  · rw [hv, ← map_rtake, h.agree.rtake_eq _ hlen hdepth, meanClose, rtake_rtake hcap]

/-- What a crossover evaluation compares. -/
theorem ofRing (h : Kept shortP longP st seen folded) {cap : Nat}
    (hlong : longP + 1 ≤ cap) (hshort : shortP ≤ cap) {e : Evaluation ℚ}
    (he : st.evaluation = some e) : e.OfRing shortP longP (seen.rtake cap) := by
  obtain ⟨hs, hl⟩ :
      st.shortSma.value = some e.currShort ∧ st.longSma.value = some e.currLong := by
    unfold Strategy.evaluation at he
    split at he
    · next hcs hcl =>
        cases he
        exact ⟨hcs, hcl⟩
    · cases he
  have hsp := h.averages.shortPeriod
  have hlp := h.averages.longPeriod
  have hmeanShort := h.mean cap h.averages.short (by omega) (by omega) hs
  have hmeanLong := h.mean cap h.averages.long (by omega) (by omega) hl
  rw [hsp] at hmeanShort
  rw [hlp] at hmeanLong
  exact ⟨hmeanShort, hmeanLong⟩

end Kept

/-! ## Runs -/

variable {cfg : Config} {symbol : Symbol} {d d' : Desk ℚ}

/-- Everything a step of the desk can do. -/
inductive DeskMove (cfg : Config) (symbol : Symbol) (longP : Nat) (d : Desk ℚ) :
    DeskAct ℚ → Desk ℚ → Prop where
  | append (c : Candle ℚ) (io : SpillIo) (store : Store ℚ)
      (r : Except AppendError Unit) :
      (∀ x ∈ d.given, x.ts < c.ts) → d.store.tryAppend cfg symbol c io =
        some (store, r) →
      DeskMove cfg symbol longP d (.append c io)
        { d with store := store, given := d.given ++ [c], unpublished := c.isValid }
  | read : DeskMove cfg symbol longP d .read (d.iterate symbol longP)
  | quiet {a : DeskAct ℚ} {d' : Desk ℚ} : d'.store = d.store → d'.given = d.given →
      d'.strategy = d.strategy → d'.evaluations = d.evaluations →
      DeskMove cfg symbol longP d a d'

theorem deskStep_move {act : DeskAct ℚ}
    (hstep : deskStep cfg symbol longP d act = some d') :
    DeskMove cfg symbol longP d act d' := by
  cases act with
  | append c io =>
      obtain ⟨⟨_, hinc⟩, hsome⟩ := Option.ite_none_right_eq_some.1 hstep
      obtain ⟨⟨store, r⟩, hcall, rfl⟩ := Option.map_eq_some_iff.1 hsome
      exact .append c io store r hinc hcall
  | publish =>
      obtain ⟨_, hd⟩ := Option.ite_none_right_eq_some.1 hstep
      cases hd
      exact .quiet rfl rfl rfl rfl
  | signal =>
      cases hstep
      exact .quiet rfl rfl rfl rfl
  | poll =>
      simp only [deskStep] at hstep
      split at hstep
      · cases hstep
      · split at hstep
        · cases hstep
          exact .quiet rfl rfl rfl rfl
        · cases hstep
          exact .quiet rfl rfl rfl rfl
  | read =>
      obtain ⟨_, hd⟩ := Option.ite_none_right_eq_some.1 hstep
      cases hd
      exact .read

/-- The store holds the end of the feed. -/
structure DeskFed (cfg : Config) (symbol : Symbol) (d : Desk ℚ) : Prop where
  fed : Fed cfg symbol d.store d.given
  increasing : d.given.Pairwise fun x y => x.ts < y.ts

namespace DeskFed

theorem start : DeskFed cfg symbol (Desk.start shortP longP) :=
  ⟨Fed.new, List.Pairwise.nil⟩

theorem append (h : DeskFed cfg symbol d) {c : Candle ℚ} {io : SpillIo} {store : Store ℚ}
    {r : Except AppendError Unit} (hinc : ∀ x ∈ d.given, x.ts < c.ts)
    (hcall : d.store.tryAppend cfg symbol c io = some (store, r)) :
    DeskFed cfg symbol
      { d with store := store, given := d.given ++ [c], unpublished := c.isValid } := by
  refine ⟨h.fed.append hcall, ?_⟩
  refine List.pairwise_append.2 ⟨h.increasing, List.pairwise_singleton _ _, ?_⟩
  intro x hx y hy
  rw [List.mem_singleton.1 hy]
  exact hinc x hx

theorem quiet (h : DeskFed cfg symbol d) (hstore : d'.store = d.store)
    (hgiven : d'.given = d.given) : DeskFed cfg symbol d' :=
  ⟨hstore ▸ hgiven ▸ h.fed, hgiven ▸ h.increasing⟩

theorem feed (h : DeskFed cfg symbol d) : Feed (validOf d.given) :=
  feed_validOf h.increasing

end DeskFed

/-- What is appended comes after what has been read. -/
theorem validOf_snoc_split {given : List (Candle ℚ)}
    (hsplit : validOf given = seen ++ later) (c : Candle ℚ) :
    ∃ later', validOf (given ++ [c]) = seen ++ later' := by
  cases hvalid : c.isValid with
  | true =>
      exact ⟨later ++ [c], by rw [validOf_snoc_valid hvalid, hsplit, List.append_assoc]⟩
  | false => exact ⟨later, by rw [validOf_snoc_invalid hvalid, hsplit]⟩

/-- The strategy has read the feed up to some point, and every evaluation so
far was one of the ring. -/
structure DeskInv (cfg : Config) (symbol : Symbol) (shortP longP : Nat)
    (d : Desk ℚ) : Prop extends DeskFed cfg symbol d where
  kept : ∃ seen later folded, validOf d.given = seen ++ later ∧
    Kept shortP longP d.strategy seen folded
  ofRing : ∀ p ∈ d.evaluations, p.1.OfRing shortP longP p.2

namespace DeskInv

theorem start : DeskInv cfg symbol shortP longP (Desk.start shortP longP) where
  toDeskFed := .start
  kept := ⟨[], [], [], rfl, Kept.new⟩
  ofRing := fun _ hp => by cases hp

/-- After a paced read the strategy has read the whole feed. -/
theorem fetch (h : DeskInv cfg symbol shortP longP d)
    (hlong : longP + 1 ≤ cfg.ringCapacity) (hpaced : paced shortP longP d .read = true) :
    ∃ folded, Kept shortP longP (d.strategy.fetch (longP + 1) (d.store.lastN symbol)).1
      (validOf d.given) folded := by
  have hfeed := h.feed
  obtain ⟨seen, later, folded, hsplit, hkept⟩ := h.kept
  have hread : ∀ n ≤ longP + 1, d.store.lastN symbol n = (seen ++ later).rtake n := by
    intro n hn
    rw [h.fed.lastN, hsplit, rtake_rtake (by omega)]
  rw [hsplit] at hfeed ⊢
  have hfresh : d.fresh = later := by
    have hfilter := hkept.filter_rtake hfeed (seen ++ later).length
    rw [rtake_of_length_le (Nat.le_refl _), rtake_of_length_le (by simp)] at hfilter
    rw [Desk.fresh, hsplit, hfilter]
  simp only [paced, hfresh] at hpaced
  split at hpaced
  · next hcold =>
      rw [Strategy.fetch, if_pos hcold, hread _ (Nat.le_refl _)]
      exact hkept.warmUp hfeed (of_decide_eq_true hpaced)
  · next hwarm =>
      exact hkept.follow hfeed (of_decide_eq_true hpaced) (hread 1 (by omega)) hwarm

theorem iterate (h : DeskInv cfg symbol shortP longP d)
    (hlong : longP + 1 ≤ cfg.ringCapacity) (hshort : shortP ≤ cfg.ringCapacity)
    (hpaced : paced shortP longP d .read = true) :
    DeskInv cfg symbol shortP longP (d.iterate symbol longP) := by
  obtain ⟨folded, hkept⟩ := h.fetch hlong hpaced
  have hwhole : validOf d.given = validOf d.given ++ [] := (List.append_nil _).symm
  unfold Desk.iterate
  split
  next st warm hfetch =>
    rw [hfetch] at hkept
    split
    · refine ⟨⟨h.fed, h.increasing⟩, ⟨_, [], folded, hwhole, ?_⟩, ?_⟩
      · exact ⟨⟨hkept.averages.short, hkept.averages.long, hkept.averages.shortPeriod,
          hkept.averages.longPeriod, hkept.averages.count⟩, hkept.last, hkept.agree⟩
      · intro p hp
        rcases List.mem_append.1 hp with hbefore | hnow
        · exact h.ofRing p hbefore
        · obtain ⟨e, he, rfl⟩ := List.mem_map.1 hnow
          rw [Option.mem_toList] at he
          rw [h.fed.hotRows_eq]
          exact hkept.ofRing hlong hshort he
    · exact ⟨⟨h.fed, h.increasing⟩, ⟨_, [], folded, hwhole, hkept⟩, h.ofRing⟩

theorem step (hlong : longP + 1 ≤ cfg.ringCapacity) (hshort : shortP ≤ cfg.ringCapacity)
    {act : DeskAct ℚ} (hpaced : paced shortP longP d act = true)
    (h : DeskInv cfg symbol shortP longP d)
    (hmove : DeskMove cfg symbol longP d act d') :
    DeskInv cfg symbol shortP longP d' := by
  cases hmove with
  | append c io store r hinc hcall =>
      obtain ⟨seen, later, folded, hsplit, hkept⟩ := h.kept
      obtain ⟨later', hsplit'⟩ := validOf_snoc_split hsplit c
      exact ⟨h.toDeskFed.append hinc hcall, ⟨seen, later', folded, hsplit', hkept⟩,
        h.ofRing⟩
  | read => exact h.iterate hlong hshort hpaced
  | quiet hstore hgiven hstrategy hevals =>
      refine ⟨h.toDeskFed.quiet hstore hgiven, ?_, ?_⟩
      · rw [hgiven, hstrategy]
        exact h.kept
      · rw [hevals]
        exact h.ofRing

end DeskInv

/-- In every run whose reads are paced, each crossover evaluation compares the
averages of the newest candles in the ring at its read. -/
theorem averages_of_newest_candles (cfg : Config) (symbol : Symbol) (shortP longP : Nat)
    (hlong : longP + 1 ≤ cfg.ringCapacity) (hshort : shortP ≤ cfg.ringCapacity)
    (acts : List (DeskAct ℚ)) (d : Desk ℚ)
    (hmeets : meets (deskStep cfg symbol longP) (paced shortP longP)
      (Desk.start shortP longP) acts) (hrun :
      exec (deskStep cfg symbol longP) (Desk.start shortP longP) acts = some d) :
    ∀ p ∈ d.evaluations, p.1.OfRing shortP longP p.2 := by
  have hinv : DeskInv cfg symbol shortP longP d :=
    exec_invariant_of_meets (fun _ _ _ hpaced h hstep =>
      h.step hlong hshort hpaced (deskStep_move hstep)) hmeets hrun DeskInv.start
  exact hinv.ofRing

/-- Three candles are read at once and two more one by one, with a wake-up that
finds nothing new in between. -/
theorem averages_of_newest_candles_one_by_one :
    let cfg : Config := ⟨1, 3, false, fun _ => false⟩
    let append (ts : Int) (price : ℚ) : List (DeskAct ℚ) :=
      [.append (flatCandle ts price) .ok, .publish]
    let acts := append 1 1 ++ append 2 1 ++ append 3 1 ++ [.poll, .read] ++
      append 4 10 ++
      [.poll, .read, .signal, .poll, .read] ++ append 5 20 ++ [.poll, .read]
    ∃ d, exec (deskStep cfg ['A'] 2) (Desk.start 1 2) acts = some d ∧
      d.evaluations.map (fun p => (p.1.currShort, p.1.currLong)) =
        [(10, 11 / 2), (20, 15)] ∧
      ∀ p ∈ d.evaluations, p.1.OfRing 1 2 p.2 := by
  intro cfg append acts
  obtain ⟨d, hrun, hd⟩ := exists_exec (deskStep cfg ['A'] 2) (Desk.start 1 2) acts
    (fun d => d.evaluations.map (fun p => (p.1.currShort, p.1.currLong)) =
      [(10, 11 / 2), (20, 15)])
    (by decide +kernel)
  exact ⟨d, hrun, of_decide_eq_true hd,
    averages_of_newest_candles cfg ['A'] 1 2 (by decide) (by decide) acts d
      (by decide +kernel) hrun⟩

end Candlestore.Hub
