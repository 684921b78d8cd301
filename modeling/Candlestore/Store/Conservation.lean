import Mathlib.Data.List.Perm.Basic
import Candlestore.Store.Interleaving

/-!
# No accepted append is lost

Whatever the threads do and whatever becomes of their spills, a call that
returned `Ok` has pushed its candle into one ring, a call that returned an error
has pushed it nowhere, and nothing enters a ring between the snapshot of an
eviction and its end.  Once all calls are over, the accepted candles of a symbol
are those in its ring, those in its evicted snapshots and those overwritten by
the ring itself, and with a data directory the evicted snapshots are what the
cold files hold.
-/

namespace Candlestore.Concurrent

open Lib

variable {τ F : Type}

/-! ## Who pushed and who returned -/

/-- The threads that pushed, in order. -/
def pushers (hist : List (Event τ F)) : List τ :=
  hist.flatMap fun
    | .push t _ _ _ _ => [t]
    | _ => []

/-- The candle a thread wants to append under a symbol. -/
def candleUnder (req : τ → Request F) (symbol : Symbol) (t : τ) : List (Candle F) :=
  match req t with
  | .append symbol' candle => if symbol' = symbol then [candle] else []
  | .range _ _ _ => []

theorem acceptedUnder_eq (req : τ → Request F) (symbol : Symbol)
    (hist : List (Event τ F)) :
    acceptedUnder req symbol hist =
      (accepters hist).flatMap (candleUnder req symbol) := by
  rw [acceptedUnder, accepters, List.flatMap_assoc]
  congr 1
  funext ev
  cases ev with
  | returned t result =>
      cases result with
      | ok => exact (List.flatMap_singleton ..).symm
      | error err => rfl
  | _ => rfl

theorem pushesUnder_eq {req : τ → Request F} (symbol : Symbol) {hist : List (Event τ F)}
    (hreq : ∀ t e symbol candle lost, .push t e symbol candle lost ∈ hist →
      req t = .append symbol candle) :
    pushesUnder symbol hist = (pushers hist).flatMap (candleUnder req symbol) := by
  rw [pushesUnder, pushers, List.flatMap_assoc]
  refine List.flatMap_congr fun ev hev => ?_
  cases ev with
  | push t e symbol' candle lost =>
      rw [List.flatMap_singleton, candleUnder, hreq t e symbol' candle lost hev]
  | _ => rfl

section Count

variable [DecidableEq τ] (t : τ) (hist : List (Event τ F))

theorem count_pushers : (pushers hist).count t = (pushesBy t hist).length := by
  induction hist with
  | nil => rfl
  | cons ev hist ih =>
      rw [pushers, pushesBy, List.flatMap_cons, List.flatMap_cons, List.count_append,
        List.length_append]
      refine congrArg₂ (· + ·) ?_ ih
      cases ev with
      | push u e symbol candle lost =>
          by_cases hu : u = t
          · simp [hu]
          · simp [hu]
      | _ => rfl

theorem count_accepters :
    (accepters hist).count t = (returnsBy t hist).countP fun r => r matches .ok () := by
  induction hist with
  | nil => rfl
  | cons ev hist ih =>
      rw [accepters, returnsBy, List.flatMap_cons, List.flatMap_cons, List.count_append,
        List.countP_append]
      refine congrArg₂ (· + ·) ?_ ih
      cases ev with
      | returned u result =>
          by_cases hu : u = t
          · cases result <;> simp [hu]
          · cases result <;> simp [hu]
      | _ => rfl

theorem mem_pushesBy {e : EntryId} {symbol : Symbol} {candle : Candle F} :
    (e, symbol, candle) ∈ pushesBy t hist ↔
      ∃ lost, .push t e symbol candle lost ∈ hist := by
  constructor
  · intro hmem
    obtain ⟨ev, hev, hin⟩ := List.mem_flatMap.1 hmem
    cases ev with
    | push u e' symbol' candle' lost =>
        dsimp only at hin
        split at hin
        · rename_i hu
          subst hu
          cases List.mem_singleton.1 hin
          exact ⟨lost, hev⟩
        · cases hin
    | _ => cases hin
  · rintro ⟨lost, hmem⟩
    exact List.mem_flatMap.2 ⟨_, hmem, by simp⟩

end Count

/-! ## Calls -/

section Calls

variable [DecidableEq τ] {cfg : Config} {req : τ → Request F} {m : Mem τ F}
  {t : τ} {p : Pc F}

/-- A call that has pushed has pushed what it was called with, once. -/
theorem CallOk.pushesBy (h : CallOk cfg t m req p) :
    pushesBy t m.hist = [] ∨ ∃ e symbol candle, req t = .append symbol candle ∧
      pushesBy t m.hist = [(e, symbol, candle)] := by
  rw [CallOk] at h
  cases hreq : req t with
  | append symbol candle =>
      rw [hreq] at h
      cases p with
      | publish =>
          obtain ⟨e, he⟩ := h.1.pushes
          exact Or.inr ⟨e, symbol, candle, rfl, he⟩
      | appended result =>
          cases result with
          | ok =>
              obtain ⟨e, he⟩ := h.1.pushes
              exact Or.inr ⟨e, symbol, candle, rfl, he⟩
          | error err => exact Or.inl h.2.1
      | idle | lookup | insert | panicked => exact Or.inl h.pushes
      | touch | push => exact Or.inl h.1.pushes
      | evict | spill | writing => exact Or.inl h.1.pushes
      | install fresh victim => cases victim <;> exact Or.inl h.1.pushes
      | abort => exact Or.inl h.1.choose_spec.pushes
      | rangeHot | rangeCold | ranged => exact h.elim
  | range symbol fromTs toTs =>
      rw [hreq] at h
      cases p with
      | rangeHot found =>
          cases found with
          | none => exact Or.inl h.pushes
          | some e => exact Or.inl h.1.pushes
      | idle | rangeCold | ranged => exact Or.inl h.pushes
      | _ => exact h.elim

/-- The call has not begun or is over. -/
def Pc.isQuiet : Pc F → Bool
  | .idle => true
  | p => p.finished

/-- A quiet call has pushed exactly if it returned `Ok`. -/
theorem CallOk.quiet (h : CallOk cfg t m req p) (hquiet : p.isQuiet = true) :
    (Concurrent.pushesBy t m.hist).length =
      (returnsBy t m.hist).countP fun r => r matches .ok () := by
  rw [CallOk] at h
  cases hreq : req t with
  | append symbol candle =>
      rw [hreq] at h
      cases p with
      | idle | panicked =>
          rw [h.pushes, h.returns]
          rfl
      | appended result =>
          cases result with
          | ok =>
              obtain ⟨e, he⟩ := h.1.pushes
              rw [he, h.2]
              rfl
          | error err =>
              rw [h.2.1, h.2.2]
              rfl
      | rangeHot | rangeCold | ranged => exact h.elim
      | _ => cases hquiet
  | range symbol fromTs toTs =>
      rw [hreq] at h
      cases p with
      | idle | ranged =>
          rw [h.pushes, h.returns]
          rfl
      | rangeHot | rangeCold => cases hquiet
      | _ => exact h.elim

end Calls

/-! ## Quiescence -/

section Quiescence

variable [DecidableEq τ] {cfg : Config} {req : τ → Request F}
  {w : World (Mem τ F) (Pc F) τ}

theorem WorldInv.push_request (h : WorldInv cfg req w) (t : τ) (e : EntryId)
    (symbol : Symbol) (candle : Candle F) (lost : Option (Candle F))
    (hmem : .push t e symbol candle lost ∈ w.mem.hist) :
    req t = .append symbol candle := by
  have hin := (mem_pushesBy t _).2 ⟨lost, hmem⟩
  rcases (h.pcs t).pushesBy with hnone | ⟨e', symbol', candle', hreq, hone⟩
  · rw [hnone] at hin
    cases hin
  · rw [hone, List.mem_singleton] at hin
    cases hin
    exact hreq

/-- Once all calls are over, what was accepted is what was pushed. -/
theorem WorldInv.accepted_perm (h : WorldInv cfg req w)
    (hquiet : ∀ t, (w.pc t).isQuiet = true) (symbol : Symbol) :
    (acceptedUnder req symbol w.mem.hist).Perm (pushesUnder symbol w.mem.hist) := by
  rw [acceptedUnder_eq, pushesUnder_eq symbol h.push_request]
  refine List.Perm.flatMap_right _ (List.perm_iff_count.2 fun t => ?_)
  rw [count_accepters, count_pushers]
  exact ((h.pcs t).quiet (hquiet t)).symm

/-- Once all calls are over, nobody holds the lock. -/
theorem WorldInv.unlocked (h : WorldInv cfg req w)
    (hquiet : ∀ t, (w.pc t).isQuiet = true) : w.mem.lock = none := by
  cases hlock : w.mem.lock with
  | none => rfl
  | some t =>
      have hholds := (h.pcs t).lock_iff.1 hlock
      have hq := hquiet t
      revert hholds hq
      cases w.pc t with
      | evict | spill | writing | install | abort => exact fun _ hq => by cases hq
      | _ => exact fun hholds => by cases hholds

end Quiescence

/-! ## Conservation -/

section Runs

variable [DecidableEq τ] [F64 F] {cfg : Config} {order : τ → OsOrder F}
  {req : τ → Request F} {as : List (Turn τ Choice)} {w : World (Mem τ F) (Pc F) τ}

/-- The version counts the calls that returned `Ok`. -/
theorem version_eq_accepters
    (hrun : exec (turn (next cfg order req)) start as = some w) :
    w.mem.counters.version = (accepters w.mem.hist).length := by
  have hinv := exec_invariant (P := fun w => WorldInv cfg req w ∧
    w.mem.counters.version = (accepters w.mem.hist).length) ?_ hrun ⟨.start, rfl⟩
  · exact hinv.2
  · rintro v a v' ⟨hv, hversion⟩ hstep
    refine ⟨hv.step hstep, ?_⟩
    obtain ⟨m, p, hnext, rfl⟩ := turn_eq_some.1 hstep
    obtain ⟨evs, heff⟩ := (sound_next hv.mem (hv.pcs a.thread) hnext).effect
    rw [heff.version, heff.hist, hversion, ← List.length_append]
    exact congrArg List.length List.flatMap_append.symm

/-- For any calls, any interleaving and any outcome of the spills: an accepted
candle is pushed once and a rejected one never; no push falls between the
snapshot of an entry and the end of its eviction; and when all calls are over
the accepted candles are the hot, the evicted and the overwritten ones. -/
theorem appends_conserved (hrun : exec (turn (next cfg order req)) start as = some w) :
    (∀ t symbol candle, req t = .append symbol candle → w.pc t = .appended (.ok ()) →
      ∃ e, pushesBy t w.mem.hist = [(e, symbol, candle)]) ∧
    (∀ t symbol candle err, req t = .append symbol candle →
      w.pc t = .appended (.error err) → pushesBy t w.mem.hist = []) ∧
    (∀ past t e symbol candle lost later,
      w.mem.hist = past ++ .push t e symbol candle lost :: later →
      ∀ before u between, past = before ++ .snapshot u e :: between →
        ∃ v, .aborted v e ∈ between) ∧
    (∀ t e symbol snapshot, .evicted t e symbol snapshot ∈ w.mem.hist →
      pushesTo e w.mem.hist = lostTo e w.mem.hist ++ snapshot) ∧
    ((∀ t, (w.pc t).isQuiet = true) →
      w.mem.counters.version = (accepters w.mem.hist).length ∧
      (∀ symbol, (acceptedUnder req symbol w.mem.hist).Perm
        (lostUnder symbol w.mem.hist ++ hotCandles w.mem.heap w.mem.map symbol ++
          evictedUnder symbol w.mem.hist)) ∧
      (cfg.dataDir = true →
        ∀ dir, stored w.mem.files dir = evictedIn cfg.uni dir w.mem.hist)) := by
  have h := WorldInv.of_exec hrun
  refine ⟨?_, ?_, ?_, ?_, ?_⟩
  · intro t symbol candle hreq hpc
    have hok := h.pcs t
    rw [CallOk, hreq, hpc] at hok
    exact hok.1.pushes
  · intro t symbol candle err hreq hpc
    have hok := h.pcs t
    rw [CallOk, hreq, hpc] at hok
    exact hok.2.1
  · intro past t e symbol candle lost later hhist
    exact h.mem.trace.explained past _ later hhist
  · intro t e symbol snapshot hmem
    obtain ⟨-, cell, hcell, -, hsnap⟩ := h.mem.ring.snapshots t e symbol snapshot hmem
    rw [h.mem.ring.rings e cell hcell, hsnap]
  · intro hquiet
    refine ⟨version_eq_accepters hrun, ?_, ?_⟩
    · intro symbol
      exact (h.accepted_perm hquiet symbol).trans (h.mem.ring.conserved symbol)
    · intro hdir dir
      have hpending := (h.mem.unlocked (h.unlocked hquiet)).2
      rw [h.mem.cold.stored hdir dir, hpending, pendingIn, List.append_nil]

/-- The race for one slot, in which one call starts over and one eviction fails. -/
theorem appends_conserved_race :
    ∃ w, exec (turn (next Race.config (fun _ => stableOrder) Race.calls)) start
      Race.sections =
        some w ∧
      retriesBy 2 w.mem.hist = 1 ∧ evictionsBegun w.mem.hist = 2 ∧
      stored w.mem.files ['A'] = [flatCandle 0 1] ∧
      (acceptedUnder Race.calls ['A'] w.mem.hist).Perm
        (lostUnder ['A'] w.mem.hist ++ hotCandles w.mem.heap w.mem.map ['A'] ++
          evictedUnder ['A'] w.mem.hist) := by
  obtain ⟨w, hrun, hw⟩ :=
    exists_exec (turn (next Race.config (fun _ => stableOrder) Race.calls)) start
      Race.sections
    (fun w => retriesBy 2 w.mem.hist = 1 ∧ evictionsBegun w.mem.hist = 2 ∧
      stored w.mem.files ['A'] = [flatCandle 0 1] ∧ ∀ t, (w.pc t).isQuiet = true)
    (by decide +kernel)
  obtain ⟨hretry, hbegun, hstored, hquiet⟩ := of_decide_eq_true hw
  exact ⟨w, hrun, hretry, hbegun, hstored,
    ((appends_conserved hrun).2.2.2.2 hquiet).2.1 ['A']⟩

end Runs

end Candlestore.Concurrent
