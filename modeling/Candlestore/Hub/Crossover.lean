import Mathlib.Data.List.Chain
import Candlestore.Hub.Executor
import Candlestore.Hub.Strategy

/-!
# Crossover signals over a run of closes

The rule of the strategy compares the averages before and after a close: it signals
when the order is strict after and was not strictly the same before.  A tie counts as
"not the same", so averages that touch and part again without crossing are signalled
a second time.  This file follows the evaluations of a run in which each close is
folded in and evaluated before the next one, and says exactly when the signals
alternate.  The strategy loop makes such a run whenever no read finds more than one
new candle (`evaluations_of_run`).
-/

namespace Candlestore.Hub

open Lib Matching Spsc

section Model

variable {F : Type} [F64 F]

/-- One candle folded in, and the evaluation if the strategy is warm.
`strategy_thread` has `min_candles = long_p + 1`. -/
def Strategy.onCandle (minCandles : Nat) (st : Strategy F) (c : Candle F) :
    Strategy F × Option (Evaluation F) :=
  let st := st.push c
  if minCandles ≤ st.candlesSeen then (st.advance, st.evaluation) else (st, none)

/-- The evaluations of a run, oldest first. -/
def Strategy.evaluations (minCandles : Nat) :
    Strategy F → List (Candle F) → List (Evaluation F)
  | _, [] => []
  | st, c :: cs =>
      (st.onCandle minCandles c).2.toList ++
        (st.onCandle minCandles c).1.evaluations minCandles cs

/-- The signals of a run. -/
def emitted (log : List (Evaluation F)) : List Side := log.filterMap Evaluation.side

/-- The averages after one evaluation are those before the next. -/
def Evaluation.Follows (e e' : Evaluation F) : Prop :=
  e'.prevShort = e.currShort ∧ e'.prevLong = e.currLong

/-- Candles that are not newer than the last one are skipped. -/
theorem Strategy.foldl_pushNew_of_le (st : Strategy F) {past : List (Candle F)}
    (hpast : ∀ x ∈ past, x.ts ≤ st.lastCandleTs) :
    past.foldl Strategy.pushNew st = st := by
  induction past with
  | nil => rfl
  | cons x past ih =>
      have hx : st.pushNew x = st := if_neg (Int.not_lt.2 (hpast x List.mem_cons_self))
      rw [List.foldl_cons, hx]
      exact ih fun y hy => hpast y (List.mem_cons_of_mem x hy)

/-- A read that finds nothing new ends the iteration. -/
theorem Strategy.fetch_none (st : Strategy F) (minCandles : Nat) (past : List (Candle F))
    (hpast : ∀ x ∈ past, x.ts ≤ st.lastCandleTs) :
    st.fetch minCandles past.rtake = (st, false) := by
  unfold Strategy.fetch
  split
  · next hcold =>
    have hold : (past.rtake minCandles).foldl Strategy.pushNew st = st :=
      st.foldl_pushNew_of_le fun x hx => hpast x (List.mem_of_mem_drop hx)
    simp only [hold, decide_eq_false (Nat.not_le.2 hcold)]
  · cases hlast : (past.rtake 1).getLast? with
    | none => rfl
    | some c =>
        have hc := List.mem_of_mem_drop (List.mem_of_getLast? hlast)
        simp only [if_pos (hpast c hc)]

/-- A read that finds one new candle folds it in, cold or warm. -/
theorem Strategy.fetch_one (st : Strategy F) (c : Candle F) {minCandles : Nat}
    (hpos : 0 < minCandles) (past : List (Candle F))
    (hpast : ∀ x ∈ past, x.ts ≤ st.lastCandleTs) (hnew : st.lastCandleTs < c.ts) :
    st.fetch minCandles (past ++ [c]).rtake =
      (st.push c, decide (minCandles ≤ (st.push c).candlesSeen)) := by
  obtain ⟨m, rfl⟩ := Nat.exists_eq_succ_of_ne_zero (Nat.ne_of_gt hpos)
  unfold Strategy.fetch
  split
  · have hold : (past.rtake m).foldl Strategy.pushNew st = st :=
      st.foldl_pushNew_of_le fun x hx => hpast x (List.mem_of_mem_drop hx)
    have hpush : [c].foldl Strategy.pushNew st = st.push c := if_pos hnew
    rw [List.rtake_concat_succ, List.foldl_append, hold, hpush]
  · next hwarm =>
    have hseen : m.succ ≤ (st.push c).candlesSeen := by
      show m.succ ≤ st.candlesSeen + 1
      omega
    rw [List.rtake_concat_succ, List.getLast?_concat]
    simp only [if_neg (Int.not_le.2 hnew), decide_eq_true hseen]

/-! ## Each evaluation starts where the one before it ended -/

theorem RollingSma.isSome_value {sma : RollingSma F} :
    sma.value.isSome ↔ 0 < sma.period ∧ sma.filled = sma.period := by
  unfold RollingSma.value
  split <;> simp_all

/-- A full window stays full. -/
theorem RollingSma.isSome_value_push {sma : RollingSma F} (close : F)
    (h : sma.value.isSome) : (sma.push close).value.isSome := by
  obtain ⟨hpos, hfilled⟩ := isSome_value.1 h
  rw [isSome_value, RollingSma.push, if_neg (by omega), RollingSma.makeRoom,
    if_pos hfilled]
  exact ⟨hpos, hfilled⟩

namespace Strategy

variable {st : Strategy F} {e : Evaluation F} {minCandles : Nat}

theorem evaluation_eq_some_iff : st.evaluation = some e ↔
    st.prevShort = some e.prevShort ∧ st.prevLong = some e.prevLong ∧
      st.shortSma.value = some e.currShort ∧ st.longSma.value = some e.currLong := by
  unfold evaluation
  split
  · next hps hpl hcs hcl =>
    rw [hps, hpl, hcs, hcl]
    simp only [Option.some.injEq]
    constructor
    · rintro rfl
      exact ⟨rfl, rfl, rfl, rfl⟩
    · rintro ⟨rfl, rfl, rfl, rfl⟩
      rfl
  · next hnone =>
    refine iff_of_false (fun h => by cases h) ?_
    rintro ⟨hps, hpl, hcs, hcl⟩
    exact hnone _ _ _ _ hps hpl hcs hcl

/-- The strategy is warm and `e` was its last evaluation. -/
structure Settled (minCandles : Nat) (st : Strategy F) (e : Evaluation F) : Prop where
  warm : minCandles ≤ st.candlesSeen
  prevShort : st.prevShort = some e.currShort
  prevLong : st.prevLong = some e.currLong
  shortSma : st.shortSma.value = some e.currShort
  longSma : st.longSma.value = some e.currLong

theorem Settled.of_evaluation (hwarm : minCandles ≤ st.candlesSeen)
    (h : st.evaluation = some e) : Settled minCandles st.advance e := by
  obtain ⟨_, _, hshort, hlong⟩ := evaluation_eq_some_iff.1 h
  exact ⟨hwarm, hshort, hlong, hshort, hlong⟩

theorem Settled.of_onCandle {c : Candle F} (h : (st.onCandle minCandles c).2 = some e) :
    Settled minCandles (st.onCandle minCandles c).1 e := by
  by_cases hwarm : minCandles ≤ (st.push c).candlesSeen
  · simp only [Strategy.onCandle, if_pos hwarm] at h ⊢
    exact .of_evaluation hwarm h
  · simp only [Strategy.onCandle, if_neg hwarm] at h
    cases h

/-- From then on every candle is evaluated. -/
theorem Settled.onCandle (h : Settled minCandles st e) (c : Candle F) :
    ∃ e', (st.onCandle minCandles c).2 = some e' ∧ e.Follows e' ∧
      Settled minCandles (st.onCandle minCandles c).1 e' := by
  obtain ⟨short, hshort⟩ := Option.isSome_iff_exists.1
    (RollingSma.isSome_value_push c.close (Option.isSome_of_eq_some h.shortSma))
  obtain ⟨long, hlong⟩ := Option.isSome_iff_exists.1
    (RollingSma.isSome_value_push c.close (Option.isSome_of_eq_some h.longSma))
  have hwarm : minCandles ≤ (st.push c).candlesSeen := Nat.le_succ_of_le h.warm
  have heval : (st.push c).evaluation = some ⟨e.currShort, e.currLong, short, long⟩ :=
    evaluation_eq_some_iff.2 ⟨h.prevShort, h.prevLong, hshort, hlong⟩
  have hcandle : (st.onCandle minCandles c).2 =
      some ⟨e.currShort, e.currLong, short, long⟩ := by
    simp only [Strategy.onCandle, if_pos hwarm]
    exact heval
  exact ⟨_, hcandle, ⟨rfl, rfl⟩, .of_onCandle hcandle⟩

theorem Settled.isChain_evaluations (h : Settled minCandles st e)
    (cs : List (Candle F)) :
    (e :: st.evaluations minCandles cs).IsChain Evaluation.Follows := by
  induction cs generalizing st e with
  | nil => exact List.IsChain.singleton e
  | cons c cs ih =>
      obtain ⟨e', heval, hfollows, hsettled⟩ := h.onCandle c
      rw [Strategy.evaluations, heval]
      exact List.isChain_cons_cons.2 ⟨hfollows, ih hsettled⟩

theorem isChain_evaluations (st : Strategy F) (minCandles : Nat) (cs : List (Candle F)) :
    (st.evaluations minCandles cs).IsChain Evaluation.Follows := by
  induction cs generalizing st with
  | nil => exact List.IsChain.nil
  | cons c cs ih =>
      rw [Strategy.evaluations]
      cases heval : (st.onCandle minCandles c).2 with
      | none => exact ih _
      | some e => exact (Settled.of_onCandle heval).isChain_evaluations cs

/-- The strategy after a run. -/
def afterAll (minCandles : Nat) (st : Strategy F) (cs : List (Candle F)) : Strategy F :=
  cs.foldl (fun st c => (st.onCandle minCandles c).1) st

theorem evaluations_concat (st : Strategy F) (minCandles : Nat) (cs : List (Candle F))
    (c : Candle F) :
    st.evaluations minCandles (cs ++ [c]) = st.evaluations minCandles cs ++
      ((st.afterAll minCandles cs).onCandle minCandles c).2.toList := by
  induction cs generalizing st with
  | nil => exact List.append_nil _
  | cons x cs ih =>
      rw [List.cons_append, evaluations, ih, evaluations, List.append_assoc]
      rfl

theorem lastCandleTs_onCandle (st : Strategy F) (c : Candle F) :
    (st.onCandle minCandles c).1.lastCandleTs = c.ts := by
  unfold onCandle
  dsimp only
  split <;> rfl

theorem lastCandleTs_afterAll (st : Strategy F) (minCandles : Nat)
    (cs : List (Candle F)) :
    (st.afterAll minCandles cs).lastCandleTs =
      (cs.getLast?.map Candle.ts).getD st.lastCandleTs := by
  induction cs using List.reverseRecOn with
  | nil => rfl
  | append_singleton cs c _ =>
      rw [afterAll, List.foldl_append, List.getLast?_concat]
      exact lastCandleTs_onCandle _ c

end Strategy

/-- No read finds more than one new candle. -/
def oneByOne (d : Desk F) : DeskAct F → Bool
  | .read => decide (d.fresh.length ≤ 1)
  | _ => true

/-- The candles the strategy has read. -/
def Desk.read (d : Desk F) : List (Candle F) :=
  (validOf d.given).filter fun c => c.ts ≤ d.strategy.lastCandleTs

end Model

/-! ## Desk runs that read the candles one by one -/

section Desk

variable {cfg : Config} {symbol : Symbol} {shortP longP : Nat} {d d' : Desk ℚ}

/-- The strategy has folded and evaluated the feed candle by candle up to its last read.
-/
structure StepwiseInv (cfg : Config) (symbol : Symbol) (shortP longP : Nat)
    (d : Desk ℚ) : Prop
    extends DeskFed cfg symbol d where
  stepwise : ∃ seen later, validOf d.given = seen ++ later ∧
    d.strategy = (Strategy.new shortP longP).afterAll (longP + 1) seen ∧
    d.evaluations.map Prod.fst = (Strategy.new shortP longP).evaluations (longP + 1) seen

namespace StepwiseInv

theorem start : StepwiseInv cfg symbol shortP longP (Desk.start shortP longP) where
  toDeskFed := .start
  stepwise := ⟨[], [], rfl, rfl, rfl⟩

/-- Where the last read divides the feed. -/
theorem divides (h : StepwiseInv cfg symbol shortP longP d)
    {seen later : List (Candle ℚ)} (hsplit : validOf d.given = seen ++ later)
    (hstrategy : d.strategy = (Strategy.new shortP longP).afterAll (longP + 1) seen) :
    d.read = seen ∧ d.fresh = later ∧ (∀ c ∈ seen, c.ts ≤ d.strategy.lastCandleTs) ∧
      ∀ c ∈ later, d.strategy.lastCandleTs < c.ts := by
  have hfeed := h.feed
  rw [hsplit] at hfeed
  have hlast := Strategy.lastCandleTs_afterAll (Strategy.new shortP longP)
    (longP + 1) seen
  rw [← hstrategy] at hlast
  obtain ⟨hseen, hlater⟩ := hfeed.divides hlast
  refine ⟨?_, ?_, fun c hc => Int.not_lt.1 (hseen c hc), hlater⟩
  · rw [Desk.read, hsplit, List.filter_append, List.filter_eq_self.2,
      List.filter_eq_nil_iff.2, List.append_nil]
    · intro c hc
      simpa using hlater c hc
    · intro c hc
      simpa using hseen c hc
  · rw [Desk.fresh, hsplit, List.filter_append, List.filter_eq_nil_iff.2,
      List.filter_eq_self.2, List.nil_append]
    · intro c hc
      simpa using hlater c hc
    · intro c hc
      simpa using hseen c hc

theorem iterate (h : StepwiseInv cfg symbol shortP longP d) (hcap : 0 < cfg.ringCapacity)
    (hone : d.fresh.length ≤ 1) :
    StepwiseInv cfg symbol shortP longP (d.iterate symbol longP) := by
  obtain ⟨seen, later, hsplit, hstrategy, heval⟩ := h.stepwise
  obtain ⟨-, hfresh, hseen, hlater⟩ := h.divides hsplit hstrategy
  have hread : d.store.lastN symbol =
      ((seen ++ later).rtake cfg.ringCapacity).rtake := by
    funext n
    rw [h.fed.lastN, hsplit]
  rw [hfresh] at hone
  unfold Desk.iterate
  rw [hread]
  cases later with
  | nil =>
      have hnone := d.strategy.fetch_none (longP + 1)
        ((seen ++ []).rtake cfg.ringCapacity)
        fun x hx => hseen x (by simpa using List.mem_of_mem_drop hx)
      rw [hnone]
      exact ⟨⟨h.fed, h.increasing⟩, seen, [], hsplit, hstrategy, heval⟩
  | cons c rest =>
      obtain rfl : rest = [] :=
        List.length_eq_zero_iff.1 (Nat.le_zero.1 (Nat.le_of_succ_le_succ hone))
      obtain ⟨m, hm⟩ := Nat.exists_eq_succ_of_ne_zero (Nat.ne_of_gt hcap)
      have hfetch := d.strategy.fetch_one c (Nat.succ_pos longP) (seen.rtake m)
        (fun x hx => hseen x (List.mem_of_mem_drop hx))
        (hlater c (List.mem_singleton_self c))
      rw [hm, List.rtake_concat_succ, hfetch]
      have hafter : (d.strategy.onCandle (longP + 1) c).1 =
          (Strategy.new shortP longP).afterAll (longP + 1) (seen ++ [c]) := by
        rw [hstrategy, Strategy.afterAll, Strategy.afterAll, List.foldl_append]
        rfl
      have hlog := Strategy.evaluations_concat (Strategy.new shortP longP)
        (longP + 1) seen c
      rw [← hstrategy, ← heval] at hlog
      have hwhole : validOf d.given =
        (seen ++ [c]) ++ [] := by rw [hsplit, List.append_nil]
      by_cases hwarm : longP + 1 ≤ (d.strategy.push c).candlesSeen
      · simp only [Strategy.onCandle, if_pos hwarm] at hafter hlog
        simp only [decide_eq_true hwarm, if_true]
        refine ⟨⟨h.fed, h.increasing⟩, seen ++ [c], [], hwhole, hafter, ?_⟩
        rw [hlog, List.map_append, List.map_map]
        exact congrArg _ (List.map_id _)
      · simp only [Strategy.onCandle, if_neg hwarm, Option.toList_none, List.append_nil]
          at hafter hlog
        simp only [decide_eq_false hwarm, Bool.false_eq_true, if_false]
        exact ⟨⟨h.fed, h.increasing⟩, seen ++ [c], [], hwhole, hafter, hlog.symm⟩

theorem step (hcap : 0 < cfg.ringCapacity) {act : DeskAct ℚ}
    (hone : oneByOne d act = true) (h : StepwiseInv cfg symbol shortP longP d)
    (hmove : DeskMove cfg symbol longP d act d') :
    StepwiseInv cfg symbol shortP longP d' := by
  cases hmove with
  | append c io store r hinc hcall =>
      obtain ⟨seen, later, hsplit, hstrategy, heval⟩ := h.stepwise
      obtain ⟨later', hsplit'⟩ := validOf_snoc_split hsplit c
      exact ⟨h.toDeskFed.append hinc hcall, seen, later', hsplit', hstrategy, heval⟩
  | read => exact h.iterate hcap (of_decide_eq_true hone)
  | quiet hstore hgiven hstrategy hevals =>
      refine ⟨h.toDeskFed.quiet hstore hgiven, ?_⟩
      rw [hgiven, hstrategy, hevals]
      exact h.stepwise

end StepwiseInv

/-- A run of the strategy loop in which no read finds more than one new candle evaluates
what it has read close by close. -/
theorem evaluations_of_run (hcap : 0 < cfg.ringCapacity) {acts : List (DeskAct ℚ)}
    (hmeets : meets (deskStep cfg symbol longP) oneByOne (Desk.start shortP longP) acts)
    (hrun : exec (deskStep cfg symbol longP) (Desk.start shortP longP) acts = some d) :
    d.evaluations.map Prod.fst =
      (Strategy.new shortP longP).evaluations (longP + 1) d.read := by
  have h : StepwiseInv cfg symbol shortP longP d :=
    exec_invariant_of_meets (fun _ _ _ hone hinv hstep =>
      hinv.step hcap hone (deskStep_move hstep)) hmeets hrun StepwiseInv.start
  obtain ⟨seen, later, hsplit, hstrategy, heval⟩ := h.stepwise
  rw [(h.divides hsplit hstrategy).1]
  exact heval

end Desk

/-! ## When the signals alternate -/

/-- How far the averages lead in the direction of a side. -/
def gap : Side → ℚ → ℚ → ℚ
  | .buy, short, long => short - long
  | .sell, short, long => long - short

theorem gap_opposite (s : Side) (short long : ℚ) :
    gap s.opposite short long = -gap s short long := by
  cases s <;> exact (neg_sub _ _).symm

theorem side_eq_some_iff (e : Evaluation ℚ) (s : Side) :
    e.side = some s ↔ gap s e.prevShort e.prevLong ≤ 0 ∧
      0 < gap s e.currShort e.currLong := by
  unfold Evaluation.side
  cases s with
  | buy =>
      simp only [gap, sub_nonpos, sub_pos]
      split_ifs with hbuy hsell
      · exact iff_of_true rfl hbuy
      · exact iff_of_false (by decide) hbuy
      · exact iff_of_false (by decide) hbuy
  | sell =>
      simp only [gap, sub_nonpos, sub_pos]
      split_ifs with hbuy hsell
      · exact iff_of_false (by decide) fun h => lt_asymm hbuy.2 h.2
      · exact iff_of_true rfl hsell
      · exact iff_of_false (by decide) hsell

theorem emitted_concat (log : List (Evaluation ℚ)) (e : Evaluation ℚ) :
    emitted (log ++ [e]) = emitted log ++ e.side.toList := by
  unfold emitted
  rw [List.filterMap_append]
  cases h : e.side <;> simp [h]

/-- The close before `e` took the averages from a tie to the order of the signal
emitted last. -/
def Relapse (before : List (Evaluation ℚ)) (e : Evaluation ℚ) : Prop :=
  e.prevShort = e.prevLong ∧
    ∃ s, (emitted before).getLast? = some s ∧ 0 < gap s e.currShort e.currLong

/-- After a signal the averages do not change sides without another one. -/
theorem gap_nonneg_of_last {log : List (Evaluation ℚ)} {e : Evaluation ℚ} {s : Side}
    (h : (log ++ [e]).IsChain Evaluation.Follows)
    (hlast : (emitted log).getLast? = some s) : 0 ≤ gap s e.prevShort e.prevLong := by
  induction log using List.reverseRecOn generalizing e with
  | nil => cases hlast
  | append_singleton log d ih =>
      rw [List.append_assoc, List.singleton_append, List.isChain_append_cons_cons] at h
      obtain ⟨hd, hfollows, _⟩ := h
      rw [hfollows.1, hfollows.2]
      rw [emitted_concat] at hlast
      cases hside : d.side with
      | some t =>
          rw [hside, Option.toList_some, List.getLast?_concat] at hlast
          rw [← Option.some.inj hlast]
          exact le_of_lt ((side_eq_some_iff d t).1 hside).2
      | none =>
          rw [hside, Option.toList_none, List.append_nil] at hlast
          have hprev := ih hd hlast
          -- otherwise the averages crossed at `d` and it would have signalled
          by_contra hneg
          have hcross : d.side = some s.opposite := by
            rw [side_eq_some_iff, gap_opposite, gap_opposite]
            constructor <;> linarith
          rw [hside] at hcross
          cases hcross

theorem eq_of_gap_eq_zero {s : Side} {short long : ℚ} (h : gap s short long = 0) :
    short = long := by
  cases s with
  | buy => exact sub_eq_zero.1 h
  | sell => exact (sub_eq_zero.1 h).symm

theorem gap_self (s : Side) (x : ℚ) : gap s x x = 0 := by
  cases s <;> exact sub_self x

/-- The last signal is repeated exactly in a relapse. -/
theorem repeats_iff_relapse {log : List (Evaluation ℚ)} {e : Evaluation ℚ}
    (h : (log ++ [e]).IsChain Evaluation.Follows) :
    (∃ s, (emitted log).getLast? = some s ∧ e.side = some s) ↔ Relapse log e := by
  constructor
  · rintro ⟨s, hlast, hside⟩
    obtain ⟨hprev, hcurr⟩ := (side_eq_some_iff e s).1 hside
    have htie := le_antisymm hprev (gap_nonneg_of_last h hlast)
    exact ⟨eq_of_gap_eq_zero htie, s, hlast, hcurr⟩
  · rintro ⟨htie, s, hlast, hcurr⟩
    refine ⟨s, hlast, (side_eq_some_iff e s).2 ⟨?_, hcurr⟩⟩
    rw [htie, gap_self]

theorem isChain_emitted_concat (log : List (Evaluation ℚ)) (e : Evaluation ℚ) :
    (emitted (log ++ [e])).IsChain (· ≠ ·) ↔
      (emitted log).IsChain (· ≠ ·) ∧
        ¬∃ s, (emitted log).getLast? = some s ∧ e.side = some s := by
  rw [emitted_concat, List.isChain_append]
  cases hside : e.side with
  | none => simp
  | some t =>
      refine and_congr_right fun _ => ?_
      rw [Option.toList_some, and_iff_right (List.IsChain.singleton t)]
      constructor
      · rintro hne ⟨s, hlast, hs⟩
        exact hne s hlast t rfl (Option.some.inj hs).symm
      · intro hnone s hlast u hu
        obtain rfl := Option.some.inj hu
        rintro rfl
        exact hnone ⟨s, hlast, rfl⟩

/-- Consecutive signals differ exactly if no close is a relapse. -/
theorem isChain_emitted_iff {log : List (Evaluation ℚ)}
    (h : log.IsChain Evaluation.Follows) :
    (emitted log).IsChain (· ≠ ·) ↔ ∀ before e, before ++ [e] <+: log →
      ¬Relapse before e := by
  induction log using List.reverseRecOn with
  | nil =>
      refine iff_of_true List.IsChain.nil ?_
      intro before e hbefore
      exact absurd (List.prefix_nil.1 hbefore) (by simp)
  | append_singleton log e ih =>
      rw [isChain_emitted_concat, ih h.left_of_append, repeats_iff_relapse h]
      constructor
      · rintro ⟨hold, hnew⟩ before d hbefore
        rcases List.prefix_concat_iff.1 hbefore with heq | hprefix
        · obtain ⟨rfl, hd⟩ := List.append_inj' heq rfl
          obtain rfl := List.singleton_inj.1 hd
          exact hnew
        · exact hold before d hprefix
      · intro hall
        refine ⟨fun before d hbefore => ?_, hall log e (List.prefix_refl _)⟩
        exact hall before d (hbefore.trans (List.prefix_append _ _))

/-! ## Positions and crossings -/

/-- The position after the signals of `log`, each of the quantity `qty`. -/
def position (start qty : ℚ) (log : List (Evaluation ℚ)) : ℚ :=
  start + ((emitted log).map fun s => (Signal.mk s qty).delta).sum

theorem delta_add_delta {s t : Side} (hne : s ≠ t) (qty : ℚ) :
    (Signal.mk s qty).delta + (Signal.mk t qty).delta = 0 := by
  cases s <;> cases t <;> simp_all [Signal.delta]

/-- Alternating signals cancel in pairs. -/
theorem sum_delta_of_isChain {sides : List Side} (h : sides.IsChain (· ≠ ·)) (qty : ℚ) :
    (sides.map fun s => (Signal.mk s qty).delta).sum = 0 ∨
      ∃ s, sides.head? = some s ∧
        (sides.map fun s => (Signal.mk s qty).delta).sum = (Signal.mk s qty).delta := by
  induction h with
  | nil => exact .inl rfl
  | singleton s => exact .inr ⟨s, rfl, List.sum_singleton⟩
  | @cons_cons s t rest hne _ ih =>
      rw [List.map_cons, List.sum_cons]
      rcases ih with hzero | ⟨u, hhead, hsum⟩
      · exact .inr ⟨s, rfl, by rw [hzero, add_zero]⟩
      · obtain rfl := Option.some.inj hhead
        exact .inl (by rw [hsum, delta_add_delta hne])

theorem abs_delta (s : Side) (qty : ℚ) : |(Signal.mk s qty).delta| = |qty| := by
  cases s with
  | buy => rfl
  | sell => exact abs_neg qty

/-- What alternation of the signals comes to. -/
structure Alternating (log : List (Evaluation ℚ)) : Prop where
  /-- Consecutive signals have different sides. -/
  sides : (emitted log).IsChain (· ≠ ·)
  /-- Between two signals of one side the averages have been strictly in the other order,
  and that was signalled. -/
  between : ∀ before first mid last after s,
    log = before ++ first :: (mid ++ last :: after) →
    first.side = some s → last.side = some s →
      ∃ e ∈ mid, e.side = some s.opposite ∧ gap s e.currShort e.currLong < 0
  /-- The position stays within one quantity of its start. -/
  position : ∀ start qty n, |position start qty (log.take n) - start| ≤ |qty|

theorem eq_opposite_of_ne {s t : Side} (h : s ≠ t) : t = s.opposite := by
  cases s <;> cases t <;> simp_all [Side.opposite]

theorem exists_opposite_between {before mid after : List (Evaluation ℚ)}
    {first last : Evaluation ℚ} {s : Side} (hfirst : first.side = some s)
    (hlast : last.side = some s)
    (h : (emitted (before ++ first :: (mid ++ last :: after))).IsChain (· ≠ ·)) :
    ∃ e ∈ mid, e.side = some s.opposite := by
  have hsplit : emitted (before ++ first :: (mid ++ last :: after)) =
      emitted before ++ s :: (emitted mid ++ s :: emitted after) := by
    simp [emitted, hfirst, hlast]
  rw [hsplit] at h
  have hchain := (List.isChain_append.1 h).2.1
  cases hmid : emitted mid with
  | nil =>
      rw [hmid, List.nil_append, List.isChain_cons_cons] at hchain
      exact absurd rfl hchain.1
  | cons t rest =>
      rw [hmid, List.cons_append, List.isChain_cons_cons] at hchain
      have hmem : t ∈ emitted mid := by
        rw [hmid]
        exact List.mem_cons_self
      obtain ⟨e, he, hside⟩ := List.mem_filterMap.1 hmem
      exact ⟨e, he, hside.trans (congrArg some (eq_opposite_of_ne hchain.1))⟩

theorem Alternating.of_sides {log : List (Evaluation ℚ)}
    (h : (emitted log).IsChain (· ≠ ·)) : Alternating log where
  sides := h
  between := by
    rintro before first mid last after s rfl hfirst hlast
    obtain ⟨e, he, hside⟩ := exists_opposite_between hfirst hlast h
    have hgap := ((side_eq_some_iff e _).1 hside).2
    rw [gap_opposite] at hgap
    exact ⟨e, he, hside, by linarith⟩
  position := by
    intro start qty n
    have htake : (emitted (log.take n)).IsChain (· ≠ ·) := by
      rw [← List.take_append_drop n log, emitted, List.filterMap_append] at h
      exact h.left_of_append
    rw [Hub.position, add_sub_cancel_left]
    rcases sum_delta_of_isChain htake qty with hzero | ⟨s, _, hsum⟩
    · rw [hzero, abs_zero]
      exact abs_nonneg qty
    · rw [hsum, abs_delta]

theorem alternating_iff {log : List (Evaluation ℚ)}
    (hchain : log.IsChain Evaluation.Follows) :
    Alternating log ↔ ∀ before e, before ++ [e] <+: log → ¬Relapse before e := by
  rw [← isChain_emitted_iff hchain]
  exact ⟨Alternating.sides, Alternating.of_sides⟩

/-- Over every sequence of closes the signals alternate exactly if no close takes the
averages from a tie back to the order of the last signal. -/
theorem signals_alternate_iff (shortP longP minCandles : Nat) (cs : List (Candle ℚ)) :
    let log := (Strategy.new shortP longP).evaluations minCandles cs
    Alternating log ↔ ∀ before e, before ++ [e] <+: log → ¬Relapse before e :=
  alternating_iff (Strategy.isChain_evaluations (Strategy.new shortP longP)
    minCandles cs)

/-- The average of one close touches that of two and parts from it upwards again: the
second buy comes without a sell. -/
theorem touching_averages_buy_twice :
    let log := (Strategy.new 1 2).evaluations 3
      ([1, 1, 1, 2, 2, 3].map fun close => (flatCandle 0 close : Candle ℚ))
    emitted log = [.buy, .buy] ∧ position 0 1 log = 2 ∧
      log.all (fun e => e.currLong ≤ e.currShort) := by
  decide +kernel

/-- The same of the strategy loop, as long as it reads the candles one by one. -/
theorem run_alternates_iff {cfg : Config} {symbol : Symbol} {shortP longP : Nat}
    {d : Desk ℚ} (hcap : 0 < cfg.ringCapacity) {acts : List (DeskAct ℚ)}
    (hmeets : meets (deskStep cfg symbol longP) oneByOne (Desk.start shortP longP) acts)
    (hrun : exec (deskStep cfg symbol longP) (Desk.start shortP longP) acts = some d) :
    let log := d.evaluations.map Prod.fst
    Alternating log ↔ ∀ before e, before ++ [e] <+: log → ¬Relapse before e := by
  intro log
  refine alternating_iff ?_
  show (d.evaluations.map Prod.fst).IsChain Evaluation.Follows
  rw [evaluations_of_run hcap hmeets hrun]
  exact Strategy.isChain_evaluations _ _ _

end Candlestore.Hub
