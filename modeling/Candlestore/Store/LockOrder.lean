import Candlestore.Store.Atomicity

/-!
# The locks are taken in order

A call takes the map before a ring and at most one ring, so whoever waits for a
lock holds only locks that come before it.  A chain of waiting calls therefore
ends in one that can move.

An append evicts at most once.  With finitely many calls there are finitely many
evictions, hence finitely many steps, and under a fair scheduler every call
returns.
-/

namespace Candlestore.Concurrent

open Lib

variable {τ F : Type}

/-! ## Whoever waits holds less -/

/-- The last lock in the order that the call holds: none, the map or a ring. -/
def LockPc.level (p : LockPc F) : Nat :=
  if p.ring?.isSome then 2 else if p.outerAccess = .none then 0 else 1

theorem LockPc.level_le (p : LockPc F) : p.level ≤ 2 := by
  unfold LockPc.level
  split
  · omega
  · split <;> omega

theorem LockPc.level_pos {p : LockPc F} (h : p.outerAccess ≠ .none) : 0 < p.level := by
  unfold LockPc.level
  rw [if_neg h]
  split <;> omega

theorem LockPc.level_eq_two {p : LockPc F} {e : EntryId} (h : p.innerAccess e ≠ .none) :
    p.level = 2 := by
  unfold LockPc.level
  cases hring : p.ring? with
  | some r => rfl
  | none =>
      rw [LockPc.innerAccess_of_none hring] at h
      exact absurd rfl h

theorem LockPc.finished_of_level {p : LockPc F} (h : 0 < p.level) :
    p.finished = false := by
  cases p with
  | enter q => cases q <;> first | rfl | cases h
  | _ => rfl

theorem LockPc.level_enter_lt (q : Pc F) : (LockPc.enter q).level < 2 := by
  simp only [LockPc.level, LockPc.ring?, Option.isSome_none, Bool.false_eq_true,
    if_false]
  split <;> omega

section Waits

variable [DecidableEq τ] {t : τ} {m : LockMem τ F}

/-- Somebody holds the lock that the call at `p` waits for, and `p` holds only locks
that come before it. -/
def Waits (m : LockMem τ F) (p : LockPc F) : Prop :=
  p.level = 0 ∧ (∃ u, m.outer.held u ≠ .none) ∨
    p.level < 2 ∧ ∃ e u, (m.inner e).held u ≠ .none

theorem waits_of_read_map {q : Pc F} (hq : q.holds = false) (h : m.outer.read t = none) :
    Waits m (.enter q) := by
  obtain ⟨u, hu⟩ := RwLock.exists_exclusive_of_read h
  refine .inl ⟨?_, u, by rw [hu]; exact fun h => by cases h⟩
  simp [LockPc.level, LockPc.ring?, LockPc.outerAccess, hq]

theorem waits_of_write_map {q : Pc F} (hq : q.holds = false)
    (h : m.outer.write t = none) : Waits m (.enter q) := by
  refine .inl ⟨?_, RwLock.exists_held_of_write h⟩
  simp [LockPc.level, LockPc.ring?, LockPc.outerAccess, hq]

theorem waits_of_write_ring {q : Pc F} {e : EntryId} (h : (m.inner e).write t = none) :
    Waits m (.enter q) :=
  .inr ⟨LockPc.level_enter_lt q, e, RwLock.exists_held_of_write h⟩

theorem waits_of_read_ring {q : Pc F} {e : EntryId} (h : (m.inner e).read t = none) :
    Waits m (.enter q) := by
  obtain ⟨u, hu⟩ := RwLock.exists_exclusive_of_read h
  exact .inr ⟨LockPc.level_enter_lt q, e, u, by rw [hu]; exact fun h => by cases h⟩

variable [F64 F] {cfg : Config} {symbol : Symbol} {n : Mem τ F} {p : LockPc F}

/-- An append that is not over can make its next access, unless it waits. -/
theorem lockAppend_enabled_or_waits {candle : Candle F}
    (hlocks : LockOk cfg t m (.append symbol candle) p) (hdata : n.toData = m.data)
    (hinv : MemInv cfg n) (hok : AppendOk cfg t symbol candle n (p.abs m.data.heap))
    (hp : p.finished = false) :
    (∃ ch, (lockAppend cfg t ch symbol candle m p).isSome) ∨ Waits m p := by
  have hknown := hlocks.known
  obtain ⟨d, outer, inner⟩ := m
  subst hdata
  cases p with
  | enter q =>
      cases q with
      | idle =>
          refine .inl ⟨⟨[], .ok⟩, ?_⟩
          rw [lockAppend]
          split <;> rfl
      | lookup tick =>
          cases hl : outer.read t with
          | none => exact .inr (waits_of_read_map rfl hl)
          | some l => exact .inl ⟨⟨[], .ok⟩, by rw [lockAppend, hl]; rfl⟩
      | push tick e =>
          cases hl : (inner e).write t with
          | none => exact .inr (waits_of_write_ring hl)
          | some l => exact .inl ⟨⟨[], .ok⟩, by rw [lockAppend, hl]; rfl⟩
      | insert tick =>
          cases hring : newRing cfg candle with
          | none => exact .inl ⟨⟨[], .ok⟩, by rw [lockAppend, hring]; rfl⟩
          | some ring =>
              cases hl : outer.write t with
              | none => exact .inr (waits_of_write_map rfl hl)
              | some l => exact .inl ⟨⟨[], .ok⟩, by rw [lockAppend, hring, hl]; rfl⟩
      | evict fresh key e =>
          cases hl : (inner e).write t with
          | none => exact .inr (waits_of_write_ring hl)
          | some l => exact .inl ⟨⟨[], .ok⟩, by rw [lockAppend, hl]; rfl⟩
      | spill fresh v =>
          obtain ⟨ch, hch⟩ := Data.enabled_beginSpill cfg n.toData fresh v
          refine .inl ⟨ch, ?_⟩
          rw [lockAppend, Option.isSome_map]
          exact hch
      | touch | writing | install | abort | publish => exact .inl ⟨⟨[], .ok⟩, rfl⟩
      | appended | panicked => cases hp
      | rangeHot | rangeCold | ranged => exact hok.elim
  | mapRead q =>
      cases q with
      | lookup tick => exact .inl ⟨⟨[], .ok⟩, rfl⟩
      | _ => cases hknown
  | choose tick ring =>
      obtain ⟨ch, hch⟩ := Data.enabled_choose cfg n.toData tick ring
      refine .inl ⟨ch, ?_⟩
      rw [lockAppend, Option.isSome_map]
      exact hch
  | flagCheck tick e =>
      obtain ⟨-, -, cell, -, -, hcell, -⟩ := hok.2
      have hcell : n.toData.heap[e]? = some cell := hcell
      exact .inl ⟨⟨[], .ok⟩, by simp [lockAppend, hcell]⟩
  | ringPush tick e =>
      obtain ⟨cell, hcell, -⟩ := hknown
      exact .inl ⟨⟨[], .ok⟩, by simp [lockAppend, hcell]⟩
  | flagSet fresh key e =>
      obtain ⟨cell, hcell, -⟩ := hinv.flag.mapped key e hok.2.2.2
      have hcell : n.toData.heap[e]? = some cell := hcell
      exact .inl ⟨⟨[], .ok⟩, by simp [lockAppend, hcell]⟩
  | ringCopy fresh key e =>
      obtain ⟨cell, hcell⟩ := hknown
      exact .inl ⟨⟨[], .ok⟩, by simp [lockAppend, hcell]⟩
  | ringRead e => exact hok.elim
  | mapRelease | raceCheck | mapUnlock | ringRelease => exact .inl ⟨⟨[], .ok⟩, rfl⟩

/-- A query that is not over can make its next access, unless it waits. -/
theorem lockRange_enabled_or_waits {o : OsOrder F} {fromTs toTs : Int}
    (hlocks : LockOk cfg t m (.range symbol fromTs toTs) p) (hdata : n.toData = m.data)
    (hok : RangeOk t n (p.abs m.data.heap)) (hp : p.finished = false) :
    (lockRange cfg t o symbol fromTs toTs m p).isSome ∨ Waits m p := by
  have hknown := hlocks.known
  obtain ⟨d, outer, inner⟩ := m
  subst hdata
  cases p with
  | enter q =>
      cases q with
      | idle =>
          cases hl : outer.read t with
          | none => exact .inr (waits_of_read_map rfl hl)
          | some l => exact .inl (by rw [lockRange, hl]; rfl)
      | rangeHot found =>
          cases found with
          | none => exact .inl rfl
          | some e =>
              cases hl : (inner e).read t with
              | none => exact .inr (waits_of_read_ring hl)
              | some l => exact .inl (by rw [lockRange, hl]; rfl)
      | rangeCold hot => exact .inl rfl
      | ranged => cases hp
      | _ => exact hok.elim
  | mapRead q =>
      cases q with
      | idle => exact .inl rfl
      | _ => cases hknown
  | mapUnlock q => cases hknown.2
  | ringRead e =>
      obtain ⟨-, cell, hcell⟩ := hok
      have hcell : n.toData.heap[e]? = some cell := hcell
      exact .inl (by simp [lockRange, hcell])
  | mapRelease | ringRelease => exact .inl rfl
  | raceCheck | choose | flagCheck | ringPush | flagSet | ringCopy => exact hok.elim

variable {order : τ → OsOrder F} {req : τ → Request F}
  {w : World (LockMem τ F) (LockPc F) τ} {v : World (Mem τ F) (Pc F) τ}

theorem Refines.enabled_or_waits (h : Refines cfg req w v) (t : τ)
    (ht : (w.pc t).finished = false) :
    (∃ ch, (turn (lockNext cfg order req) w ⟨t, ch⟩).isSome) ∨ Waits w.mem (w.pc t) := by
  have hlocks := h.locks t
  have hok := h.inv.pcs t
  rw [h.pcs t, CallOk] at hok
  simp only [turn, Option.isSome_map, lockNext]
  cases hreq : req t with
  | append symbol candle =>
      rw [hreq] at hok hlocks
      exact lockAppend_enabled_or_waits hlocks h.data h.inv.mem hok ht
  | range symbol fromTs toTs =>
      rw [hreq] at hok hlocks
      rcases lockRange_enabled_or_waits hlocks h.data hok ht with hgo | hwait
      · exact .inl ⟨⟨[], .ok⟩, hgo⟩
      · exact .inr hwait

/-- A call that waits waits for one that holds more. -/
theorem Refines.exists_above (h : Refines cfg req w v) {t : τ}
    (hwait : Waits w.mem (w.pc t)) :
    ∃ u, (w.pc u).finished = false ∧ (w.pc t).level < (w.pc u).level := by
  rcases hwait with ⟨hlevel, u, hu⟩ | ⟨hlevel, e, u, hu⟩
  · rw [(h.locks u).outer] at hu
    have hpos := LockPc.level_pos hu
    exact ⟨u, LockPc.finished_of_level hpos, by omega⟩
  · rw [(h.locks u).inner] at hu
    have htwo := LockPc.level_eq_two hu
    exact ⟨u, LockPc.finished_of_level (by omega), by omega⟩

theorem Refines.exists_enabled (h : Refines cfg req w v) {t : τ}
    (ht : (w.pc t).finished = false) :
    ∃ u, (w.pc u).finished = false ∧
      ∃ ch, (turn (lockNext cfg order req) w ⟨u, ch⟩).isSome := by
  refine exists_enabled_of_lock_order (fun u => (w.pc u).level) 2
    (fun u => (w.pc u).level_le) ?_ ht
  intro u hu
  have hcan : (∃ ch, (turn (lockNext cfg order req) w ⟨u, ch⟩).isSome) ∨
      Waits w.mem (w.pc u) :=
    h.enabled_or_waits u hu
  rcases hcan with hgo | hwait
  · exact .inl hgo
  · exact .inr (h.exists_above hwait)

end Waits

/-! ## A call evicts at most once -/

/-- The threads that have begun an eviction, in order. -/
def evicters (hist : List (Event τ F)) : List τ :=
  hist.flatMap fun
    | .snapshot t _ => [t]
    | _ => []

theorem evicters_append (h₁ h₂ : List (Event τ F)) :
    evicters (h₁ ++ h₂) = evicters h₁ ++ evicters h₂ := List.flatMap_append

theorem evictionsBegun_eq (hist : List (Event τ F)) :
    evictionsBegun hist = (evicters hist).length := by
  induction hist with
  | nil => rfl
  | cons ev hist ih =>
      rw [← List.singleton_append, evictionsBegun_append, evicters_append,
        List.length_append, ih]
      cases ev <;> rfl

/-- How often the call may have evicted. -/
def Pc.evictions : Pc F → Nat
  | .spill _ _ => 1
  | .writing _ _ _ => 1
  | .install _ _ => 1
  | .abort _ _ => 1
  | .publish => 1
  | .appended _ => 1
  | _ => 0

section Evicters

variable [F64 F] {cfg : Config} {order : τ → OsOrder F} {req : τ → Request F}

theorem appendStep_evicters {t : τ} {ch : Choice} {symbol : Symbol} {candle : Candle F}
    {m m' : Mem τ F} {p p' : Pc F}
    (hstep : appendStep cfg t ch symbol candle m p = some (m', p')) :
    evicters m'.hist = evicters m.hist ∧ p.evictions ≤ p'.evictions ∨
      evicters m'.hist = evicters m.hist ++ [t] ∧ p.evictions + 1 = p'.evictions := by
  have hlog : ∀ {evs : List (Event τ F)}, evicters evs = [] →
      evicters (m.hist ++ evs) = evicters m.hist := by
    intro evs hevs
    rw [evicters_append, hevs, List.append_nil]
  cases appendStep_move hstep with
  | mark fresh key e cell hcell => exact .inr ⟨evicters_append .., rfl⟩
  | replace fresh v =>
      exact .inl ⟨(congrArg evicters (List.append_assoc ..)).trans (hlog rfl),
        Nat.le_refl _⟩
  | begin | touch | panic | skipSpill | failBefore | create | write | failAfter =>
      exact .inl ⟨rfl, Nat.le_of_ble_eq_true rfl⟩
  | reject | hit | miss | retry | push | raceHit | acquireFull | acquireFree
  | install | abort
  | publish => exact .inl ⟨hlog rfl, Nat.le_of_ble_eq_true rfl⟩

theorem next_evicters {t : τ} {ch : Choice} {m m' : Mem τ F} {p p' : Pc F}
    (hstep : next cfg order req t ch m p = some (m', p')) :
    evicters m'.hist = evicters m.hist ∧ p.evictions ≤ p'.evictions ∨
      evicters m'.hist = evicters m.hist ++ [t] ∧ p.evictions + 1 = p'.evictions := by
  rw [next] at hstep
  cases hreq : req t with
  | append symbol candle =>
      rw [hreq] at hstep
      exact appendStep_evicters hstep
  | range symbol fromTs toTs =>
      rw [hreq] at hstep
      have hhist := (rangeStep_hist hstep).1
      refine .inl ⟨by rw [hhist], ?_⟩
      cases p with
      | idle | rangeHot | rangeCold => exact Nat.zero_le _
      | _ => cases hstep

variable [DecidableEq τ]

theorem count_evicters_le {as : List (Turn τ Choice)} {w : World (Mem τ F) (Pc F) τ}
    (hrun : exec (turn (next cfg order req)) start as = some w) (t : τ) :
    (evicters w.mem.hist).count t ≤ (w.pc t).evictions := by
  refine exec_invariant (P := fun w : World (Mem τ F) (Pc F) τ =>
    (evicters w.mem.hist).count t ≤ (w.pc t).evictions) ?_ hrun (Nat.zero_le _)
  intro w a w' hw hstep
  obtain ⟨m, p, hnext, rfl⟩ := turn_eq_some.1 hstep
  dsimp only
  by_cases ht : a.thread = t
  · subst ht
    rw [Function.update_self]
    rcases next_evicters hnext with ⟨hsame, hle⟩ | ⟨hone, heq⟩
    · rw [hsame]
      omega
    · rw [hone, List.count_append, List.count_singleton_self]
      omega
  · rw [Function.update_of_ne (Ne.symm ht)]
    rcases next_evicters hnext with ⟨hsame, -⟩ | ⟨hone, -⟩
    · rw [hsame]
      exact hw
    · rw [hone, List.count_append, List.count_singleton, beq_false_of_ne ht]
      exact hw

/-- There are at most as many evictions as calls. -/
theorem evictionsBegun_le_card [Fintype τ] {as : List (Turn τ Choice)}
    {w : World (Mem τ F) (Pc F) τ}
    (hrun : exec (turn (next cfg order req)) start as = some w) :
    evictionsBegun w.mem.hist ≤ Fintype.card τ := by
  rw [evictionsBegun_eq]
  refine List.Nodup.length_le_card (List.nodup_iff_count_le_one.2 ?_)
  intro t
  refine (count_evicters_le hrun t).trans ?_
  cases w.pc t <;> exact Nat.le_of_ble_eq_true rfl

end Evicters

/-! ## Every call returns -/

section Runs

variable [DecidableEq τ] [F64 F]

/-- No interleaving of the accesses ends in a deadlock. -/
theorem no_deadlock (cfg : Config) (order : τ → OsOrder F) (req : τ → Request F)
    (as : List (Turn τ Choice)) (w : World (LockMem τ F) (LockPc F) τ)
    (hrun : exec (turn (lockNext cfg order req)) lockStart as = some w) (t : τ)
    (ht : (w.pc t).finished = false) :
    ∃ u, (w.pc u).finished = false ∧
      ∃ ch, (turn (lockNext cfg order req) w ⟨u, ch⟩).isSome := by
  obtain ⟨-, v, -, -, hR, -⟩ := refines_of_exec hrun
  exact hR.exists_enabled ht

/-- A call holds the map in the middle of an eviction while another one waits for
it: the one that holds the map can move. -/
theorem no_deadlock_evicting :
    let cfg := Race.config
    let req := Race.calls
    let go (t : Fin 3) (n : Nat) := Race.turns t n .ok
    ∃ w, exec (turn (lockNext cfg (fun _ => stableOrder) req)) lockStart
        (go 0 10 ++ go 2 5 ++ go 1 11 ++ go 2 3) = some w ∧
      (turn (lockNext cfg (fun _ => stableOrder) req) w ⟨2, ⟨['A'], .ok⟩⟩).isNone ∧
      ∃ u, (w.pc u).finished = false ∧
        ∃ ch, (turn (lockNext cfg (fun _ => stableOrder) req) w ⟨u, ch⟩).isSome := by
  intro cfg req go
  obtain ⟨w, hrun, hw⟩ :=
    exists_exec (turn (lockNext cfg (fun _ => stableOrder) req)) lockStart
      (go 0 10 ++ go 2 5 ++ go 1 11 ++ go 2 3)
      (fun w => (w.pc 2).finished = false ∧
        (turn (lockNext cfg (fun _ => stableOrder) req) w ⟨2, ⟨['A'], .ok⟩⟩).isNone)
      (by decide +kernel)
  obtain ⟨hactive, hwaits⟩ := of_decide_eq_true hw
  exact ⟨w, hrun, hwaits, no_deadlock cfg (fun _ => stableOrder) req _ w hrun 2 hactive⟩

/-- A bound on the accesses of one call among finitely many. -/
theorem stepsOf_lockNext_le [Fintype τ] {cfg : Config} {order : τ → OsOrder F}
    {req : τ → Request F} {as : List (Turn τ Choice)}
    {w : World (LockMem τ F) (LockPc F) τ}
    (hrun : exec (turn (lockNext cfg order req)) lockStart as = some w) (t : τ) :
    stepsOf t as ≤ 42 + 25 * Fintype.card τ := by
  obtain ⟨bs, v, -, hbs, -, hcost⟩ := refines_of_exec hrun
  have hsteps := stepsOf_le t hbs
  have hevict := evictionsBegun_le_card hbs
  have := hcost t
  omega

/-- With finitely many calls and a fair scheduler every call returns, after at most
`42 + 25 * n` accesses of its own where `n` is the number of calls. -/
theorem every_call_returns [Fintype τ] (cfg : Config) (order : τ → OsOrder F)
    (req : τ → Request F) (r : FairRun (lockNext cfg order req))
    (hstart : r.state 0 = lockStart) (t : τ) :
    (∃ n, ((r.state n).pc t).finished = true) ∧
      ∀ n, stepsOf t (r.acts n) ≤ 42 + 25 * Fintype.card τ := by
  have hexec : ∀ n, exec (turn (lockNext cfg order req)) lockStart (r.acts n) =
      some (r.state n) :=
    fun n => hstart ▸ r.exec_acts n
  refine ⟨?_, fun n => stepsOf_lockNext_le (hexec n) t⟩
  refine r.exists_finished_of_finite (fun p => p.finished = true) ?_ ?_ t
  · intro u
    exact ⟨_, fun n => stepsOf_lockNext_le (hexec n) u⟩
  · intro n u hu
    obtain ⟨-, v, -, -, hR, -⟩ := refines_of_exec (hexec n)
    obtain ⟨u', -, ch, hch⟩ := hR.exists_enabled (Bool.eq_false_iff.2 hu)
    exact ⟨u', ch, hch⟩

theorem turn_lockNext_finished {cfg : Config} {order : τ → OsOrder F}
    {req : τ → Request F} {w : World (LockMem τ F) (LockPc F) τ}
    (hdone : ∀ t, (w.pc t).finished = true) (a : Turn τ Choice) :
    turn (lockNext cfg order req) w a = none := by
  obtain ⟨q, hq, hfin⟩ := LockPc.eq_enter (hdone a.thread)
  rw [turn, Option.map_eq_none_iff, lockNext, hq]
  cases q with
  | appended | ranged | panicked => cases req a.thread <;> rfl
  | _ => cases hfin

/-- Two appends that fight for the only place and a query, to the end. -/
theorem every_call_returns_race :
    let cfg : Config := ⟨1, 1, true, fun _ => false⟩
    let req : Fin 3 → Request ℚ := fun t =>
      if t = 2 then .range ['A'] 0 9 else .append (if t = 1 then ['B'] else ['A'])
        (flatCandle t 1)
    ∃ r : FairRun (lockNext cfg (fun _ => stableOrder) req), r.state 0 = lockStart ∧
      ∀ t, (∃ n, ((r.state n).pc t).finished = true) ∧
      ∀ n, stepsOf t (r.acts n) ≤ 117 := by
  intro cfg req
  let go (t : Fin 3) (n : Nat) : List (Turn (Fin 3) Choice) :=
    List.replicate n ⟨t, ⟨['A'], .ok⟩⟩
  obtain ⟨w, hrun, hw⟩ :=
    exists_exec (turn (lockNext cfg (fun _ => stableOrder) req)) lockStart
      (go 0 10 ++ go 2 3 ++ go 1 9 ++ go 1 2 ++ go 2 3 ++ go 1 5 ++ go 2 1)
      (fun w => ∀ t, (w.pc t).finished = true) (by decide +kernel)
  have hdone := of_decide_eq_true hw
  exact ⟨.ofExec hrun (turn_lockNext_finished hdone), rfl,
    every_call_returns cfg (fun _ => stableOrder) req _ rfl⟩

end Runs

end Candlestore.Concurrent
