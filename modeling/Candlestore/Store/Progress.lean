import Candlestore.Store.Interleaving

/-!
# The removed flag, and why every append finishes

While nobody holds the outer lock the `removed` flag of an entry tells whether
the entry is in the map.  A caller that finds the flag raised therefore lost a
race against an eviction that began after its lookup, and each time it starts
over it lost against another one.  A call takes at most a fixed number of steps
between two such races, and waits for nothing but the outer lock, whose holder
can always move.
-/

namespace Candlestore.Concurrent

open Lib

variable {τ F : Type}

/-! ## Retries answer to evictions -/

theorem evictionsBegun_append (h₁ h₂ : List (Event τ F)) :
    evictionsBegun (h₁ ++ h₂) = evictionsBegun h₁ + evictionsBegun h₂ :=
  List.countP_append

section Retries

variable [DecidableEq τ]

theorem retriesBy_append (t : τ) (h₁ h₂ : List (Event τ F)) :
    retriesBy t (h₁ ++ h₂) = retriesBy t h₁ + retriesBy t h₂ := List.countP_append

theorem retriesBy_eq_zero {t : τ} {evs : List (Event τ F)}
    (h : ∀ ev ∈ evs, ev.thread ≠ t) : retriesBy t evs = 0 := by
  rw [retriesBy, List.countP_eq_zero]
  intro ev hev
  cases ev with
  | retry u e => exact fun heq => h _ hev (of_decide_eq_true heq)
  | _ => exact Bool.false_ne_true

/-- A caller starts over at most once for each eviction. -/
theorem retriesBy_le (t : τ) (hist : List (Event τ F)) (h : Explained Justified hist) :
    retriesBy t hist ≤ evictionsBegun hist := by
  induction hlen : hist.length using Nat.strong_induction_on generalizing hist with
  | _ n ih =>
      rcases List.eq_nil_or_concat hist with rfl | ⟨past, ev, rfl⟩
      · exact Nat.le_refl 0
      · rw [List.concat_eq_append] at h hlen ⊢
        have hpast := h.past rfl
        rw [List.length_append, List.length_singleton] at hlen
        rw [retriesBy_append, evictionsBegun_append]
        by_cases hev : ∃ e, ev = .retry t e
        · obtain ⟨e, rfl⟩ := hev
          obtain ⟨before, after, rfl, hafter, u, hu⟩ := h past _ [] rfl
          have hbefore := ih before.length (by simp at hlen; omega) before
            (hpast.past rfl) rfl
          have hone : 1 ≤ evictionsBegun after :=
            List.countP_pos_iff.2 ⟨_, hu, rfl⟩
          rw [retriesBy_append, evictionsBegun_append, ← List.singleton_append,
            retriesBy_append, evictionsBegun_append, retriesBy_eq_zero hafter]
          have hself : retriesBy t [(.retry t e : Event τ F)] = 1 := by simp [retriesBy]
          have hlook : retriesBy t [(.lookup t (some e) : Event τ F)] = 0 := rfl
          omega
        · have hzero : retriesBy t [ev] = 0 := by
            rw [retriesBy, List.countP_singleton]
            cases ev with
            | retry u e =>
                have hne : u ≠ t := fun heq => hev ⟨e, by rw [heq]⟩
                simp [hne]
            | _ => rfl
          have := ih past.length (by omega) past hpast rfl
          omega

end Retries

/-! ## The steps of a call are bounded -/

/-- How many steps a call may still take without starting over. -/
def Pc.rank : Pc F → Nat
  | .idle => 8
  | .lookup _ => 7
  | .insert _ => 6
  | .evict _ _ _ => 5
  | .spill _ _ => 4
  | .writing _ _ _ => 3
  | .touch _ _ => 3
  | .push _ _ => 2
  | .install _ _ => 2
  | .abort _ _ => 1
  | .publish => 1
  | .rangeHot _ => 2
  | .rangeCold _ => 1
  | .appended _ => 0
  | .ranged _ => 0
  | .panicked => 0

section Rank

variable [F64 F] {cfg : Config} {t : τ} {ch : Choice} {symbol : Symbol}
  {candle : Candle F} {m m' : Mem τ F} {p p' : Pc F}

/-- A step appends to the history; it spends rank or starts over. -/
theorem appendStep_hist (hstep : appendStep cfg t ch symbol candle m p = some (m', p')) :
    ∃ evs, m'.hist = m.hist ++ evs ∧
      (p'.rank + 1 ≤ p.rank ∨ p'.rank + 1 ≤ p.rank + 5 ∧ ∃ e, evs = [.retry t e]) := by
  have hnil : m.hist = m.hist ++ [] := (List.append_nil _).symm
  cases appendStep_move hstep with
  | retry tick e => exact ⟨_, rfl, .inr ⟨Nat.le_refl _, e, rfl⟩⟩
  | replace fresh v => exact ⟨_, List.append_assoc _ _ _, .inl (Nat.le_refl _)⟩
  | begin | touch | panic | skipSpill | failBefore | create | write | failAfter =>
      exact ⟨[], hnil, .inl (Nat.le_of_ble_eq_true rfl)⟩
  | reject | hit | miss | push | raceHit | acquireFull | acquireFree | mark
  | install | abort
  | publish => exact ⟨_, rfl, .inl (Nat.le_of_ble_eq_true rfl)⟩

theorem rangeStep_hist {o : OsOrder F} {fromTs toTs : Int}
    (hstep : rangeStep cfg o symbol fromTs toTs m p = some (m', p')) :
    m'.hist = m.hist ∧ p'.rank + 1 ≤ p.rank := by
  cases p with
  | idle =>
      rw [rangeStep] at hstep
      split at hstep
      · cases hstep
      · cases hstep
        exact ⟨rfl, Nat.le_of_ble_eq_true rfl⟩
  | rangeHot found =>
      cases found with
      | none =>
          cases hstep
          exact ⟨rfl, Nat.le_refl _⟩
      | some e =>
          rw [rangeStep] at hstep
          split at hstep
          · cases hstep
            exact ⟨rfl, Nat.le_refl _⟩
          · cases hstep
  | rangeCold hot =>
      cases hstep
      exact ⟨rfl, Nat.le_refl _⟩
  | _ => cases hstep

end Rank

section Steps

variable [DecidableEq τ] [F64 F] {cfg : Config} {order : τ → OsOrder F}
  {req : τ → Request F}

theorem next_hist {t : τ} {ch : Choice} {m m' : Mem τ F} {p p' : Pc F}
    (hstep : next cfg order req t ch m p = some (m', p')) :
    ∃ evs, m'.hist = m.hist ++ evs ∧
      p'.rank + 1 + 5 * retriesBy t m.hist ≤ p.rank + 5 * retriesBy t m'.hist := by
  rw [next] at hstep
  cases hreq : req t with
  | append symbol candle =>
      rw [hreq] at hstep
      obtain ⟨evs, hhist, hrank⟩ := appendStep_hist hstep
      refine ⟨evs, hhist, ?_⟩
      rw [hhist, retriesBy_append]
      rcases hrank with hspent | ⟨hgained, e, rfl⟩
      · omega
      · have hone : retriesBy t [(.retry t e : Event τ F)] = 1 := by simp [retriesBy]
        omega
  | range symbol fromTs toTs =>
      rw [hreq] at hstep
      obtain ⟨hhist, hrank⟩ := rangeStep_hist hstep
      refine ⟨[], hhist.trans (List.append_nil _).symm, ?_⟩
      rw [hhist]
      omega

/-- A call takes at most eight steps, and five more for each time it starts
over. -/
theorem stepsOf_le (t : τ) {as : List (Turn τ Choice)} {w : World (Mem τ F) (Pc F) τ}
    (hrun : exec (turn (next cfg order req)) start as = some w) :
    stepsOf t as ≤ 8 + 5 * evictionsBegun w.mem.hist := by
  have hbound := stepsOf_add_rank_le Pc.rank
    (fun t (m : Mem τ F) => 5 * retriesBy t m.hist) ?_ ?_ t hrun
  · have hretry := retriesBy_le t _ (WorldInv.of_exec hrun).mem.trace.explained
    have hzero : 5 * retriesBy t (start : World (Mem τ F) (Pc F) τ).mem.hist = 0 := rfl
    have hidle : ((start : World (Mem τ F) (Pc F) τ).pc t).rank = 8 := rfl
    omega
  · intro t ch m p m' p' hnext
    obtain ⟨-, -, hrank⟩ := next_hist hnext
    exact hrank
  · intro t ch m p m' p' u _ hnext
    obtain ⟨evs, hhist, -⟩ := next_hist hnext
    rw [hhist, retriesBy_append]
    omega

/-- Evictions begun stay begun. -/
theorem evictionsBegun_mono {as : List (Turn τ Choice)} {w w' : World (Mem τ F) (Pc F) τ}
    (hrun : exec (turn (next cfg order req)) w as = some w') :
    evictionsBegun w.mem.hist ≤ evictionsBegun w'.mem.hist := by
  refine exec_invariant
    (P := fun v => evictionsBegun w.mem.hist ≤ evictionsBegun v.mem.hist) ?_ hrun
    (Nat.le_refl _)
  intro v a v' hv hstep
  obtain ⟨m, p, hnext, rfl⟩ := turn_eq_some.1 hstep
  obtain ⟨evs, hhist, -⟩ := next_hist hnext
  show evictionsBegun w.mem.hist ≤ evictionsBegun m.hist
  rw [hhist, evictionsBegun_append]
  omega

end Steps

/-! ## A call that may have the lock can move -/

theorem Data.enabled_choose (cfg : Config) (d : Data F) (tick : Nat)
    (ring : RingBuffer F) : ∃ ch, (d.choose cfg ch tick ring).isSome := by
  by_cases hfull : cfg.maxSymbols ≤ d.map.keys.length ∧ d.map.keys ≠ []
  · obtain ⟨key, hkey⟩ := List.exists_mem_of_ne_nil _ hfull.2
    refine ⟨⟨key, .ok⟩, ?_⟩
    rw [choose, if_pos hfull, Option.isSome_map]
    exact AList.lookup_isSome.2 (AList.mem_keys.2 hkey)
  · refine ⟨⟨[], .ok⟩, ?_⟩
    rw [choose, if_neg hfull]
    rfl

theorem Data.enabled_beginSpill (cfg : Config) (d : Data F) (fresh : Entry F)
    (v : Victim F) : ∃ ch, (d.beginSpill cfg ch fresh v).isSome := by
  refine ⟨⟨[], .failBefore .io⟩, ?_⟩
  rw [beginSpill]
  cases v.snapshot with
  | nil => rfl
  | cons c cs =>
      dsimp only
      split <;> rfl

theorem enabled_beginInsert (cfg : Config) (t : τ) (symbol : Symbol) (m : Mem τ F)
    (tick : Nat) (ring : RingBuffer F) :
    ∃ ch, (beginInsert cfg t ch symbol m tick ring).isSome := by
  cases hfound : m.map.lookup symbol with
  | some e => exact ⟨⟨[], .ok⟩, by rw [beginInsert, hfound]; rfl⟩
  | none =>
      obtain ⟨ch, hch⟩ := Data.enabled_choose cfg m.toData tick ring
      refine ⟨ch, ?_⟩
      rw [beginInsert, hfound]
      dsimp only
      rw [Option.isSome_map]
      exact hch

section Enabled

variable [DecidableEq τ] [F64 F] {cfg : Config} {t : τ} {symbol : Symbol}
  {candle : Candle F} {m : Mem τ F}

theorem enabled_appendStep (h : MemInv cfg m) {p : Pc F}
    (hok : AppendOk cfg t symbol candle m p) (hlock : m.lock = none ∨ m.lock = some t)
    (hp : p.finished = false) :
    ∃ ch, (appendStep cfg t ch symbol candle m p).isSome := by
  have hfree : m.lock ≠ some t → m.lock = none := fun hne => hlock.resolve_right hne
  cases p with
  | idle =>
      refine ⟨⟨[], .ok⟩, ?_⟩
      rw [appendStep]
      split <;> rfl
  | lookup tick =>
      refine ⟨⟨[], .ok⟩, ?_⟩
      rw [appendStep, hfree hok.lock]
      rfl
  | touch tick e => exact ⟨⟨[], .ok⟩, rfl⟩
  | push tick e =>
      obtain ⟨-, -, cell, -, -, hcell, -⟩ := hok.2
      refine ⟨⟨[], .ok⟩, ?_⟩
      rw [appendStep, hcell]
      dsimp only
      split <;> rfl
  | insert tick =>
      cases hring : newRing cfg candle with
      | none => exact ⟨⟨[], .ok⟩, by rw [appendStep, hring]; rfl⟩
      | some ring =>
          have hnone := hfree hok.lock
          obtain ⟨ch, hch⟩ := enabled_beginInsert cfg t symbol m tick ring
          refine ⟨ch, ?_⟩
          rw [appendStep, hring]
          dsimp only
          rw [hnone, Option.isSome_none, if_neg Bool.false_ne_true]
          exact hch
  | evict fresh key e =>
      obtain ⟨cell, hcell, -⟩ := h.flag.mapped key e hok.2.2.2
      exact ⟨⟨[], .ok⟩, by rw [appendStep, hcell]; rfl⟩
  | spill fresh v =>
      obtain ⟨ch, hch⟩ := Data.enabled_beginSpill cfg m.toData fresh v
      refine ⟨ch, ?_⟩
      rw [appendStep, beginSpill, Option.isSome_map]
      exact hch
  | writing fresh v name => exact ⟨⟨[], .ok⟩, rfl⟩
  | install fresh victim => exact ⟨⟨[], .ok⟩, by cases victim <;> rfl⟩
  | abort v err => exact ⟨⟨[], .ok⟩, rfl⟩
  | publish => exact ⟨⟨[], .ok⟩, rfl⟩
  | appended | panicked => cases hp
  | rangeHot | rangeCold | ranged => exact hok.elim

theorem enabled_rangeStep {o : OsOrder F} {fromTs toTs : Int} {p : Pc F}
    (hok : RangeOk t m p) (hlock : m.lock = none ∨ m.lock = some t)
    (hp : p.finished = false) : (rangeStep cfg o symbol fromTs toTs m p).isSome := by
  cases p with
  | idle =>
      rw [rangeStep, hlock.resolve_right hok.lock]
      rfl
  | rangeHot found =>
      cases found with
      | none => rfl
      | some e =>
          obtain ⟨-, cell, hcell⟩ := hok
          rw [rangeStep, hcell]
          rfl
  | rangeCold hot => rfl
  | ranged => cases hp
  | _ => exact hok.elim

variable {order : τ → OsOrder F} {req : τ → Request F} {w : World (Mem τ F) (Pc F) τ}

theorem WorldInv.enabled (h : WorldInv cfg req w) (t : τ)
    (hlock : w.mem.lock = none ∨ w.mem.lock = some t) (hp : (w.pc t).finished = false) :
    ∃ ch, (turn (next cfg order req) w ⟨t, ch⟩).isSome := by
  have hok := h.pcs t
  rw [CallOk] at hok
  cases hreq : req t with
  | append symbol candle =>
      rw [hreq] at hok
      obtain ⟨ch, hch⟩ := enabled_appendStep h.mem hok hlock hp
      refine ⟨ch, ?_⟩
      rw [turn, Option.isSome_map, next, hreq]
      exact hch
  | range symbol fromTs toTs =>
      rw [hreq] at hok
      refine ⟨⟨[], .ok⟩, ?_⟩
      rw [turn, Option.isSome_map, next, hreq]
      exact enabled_rangeStep hok hlock hp

/-- A call that is not over can move, or the holder of the lock can. -/
theorem WorldInv.progress (h : WorldInv cfg req w) (t : τ)
    (hp : (w.pc t).finished = false) :
    (∃ ch, (turn (next cfg order req) w ⟨t, ch⟩).isSome) ∨
      ∃ u, w.mem.lock = some u ∧ ∃ ch, (turn (next cfg order req) w ⟨u, ch⟩).isSome := by
  cases hlock : w.mem.lock with
  | none => exact Or.inl (h.enabled t (Or.inl hlock) hp)
  | some u =>
      have hholds := (h.pcs u).lock_iff.1 hlock
      have hu : (w.pc u).finished = false := by
        revert hholds
        cases w.pc u with
        | evict | spill | writing | install | abort => exact fun _ => rfl
        | _ => exact fun hholds => by cases hholds
      exact Or.inr ⟨u, rfl, h.enabled u (Or.inr hlock) hu⟩

end Enabled

/-! ## Runs -/

section Runs

variable [DecidableEq τ] [F64 F] {cfg : Config} {order : τ → OsOrder F}
  {req : τ → Request F}

/-- The lock passes from a holder to nobody before it passes on. -/
theorem WorldInv.handover {w w' : World (Mem τ F) (Pc F) τ} (h : WorldInv cfg req w)
    {a : Turn τ Choice} (hstep : turn (next cfg order req) w a = some w') (u : τ)
    (hlock : w.mem.lock = some u) : w'.mem.lock = some u ∨ w'.mem.lock = none := by
  obtain ⟨m, p, hnext, rfl⟩ := turn_eq_some.1 hstep
  obtain ⟨evs, heff⟩ := (sound_next h.mem (h.pcs a.thread) hnext).effect
  rcases heff.lock with hsame | ⟨hnone, -⟩ | ⟨-, hfree⟩
  · exact Or.inl (hsame.trans hlock)
  · rw [hlock] at hnone
    cases hnone
  · exact Or.inr hfree

/-- In a fair run with finitely many evictions every call finishes. -/
theorem fairRun_finished (r : FairRun (next cfg order req)) (hstart : r.state 0 = start)
    (bound : Nat) (hbound : ∀ n, evictionsBegun (r.state n).mem.hist ≤ bound) (t : τ) :
    ∃ n, ((r.state n).pc t).finished = true := by
  have hexec : ∀ n, exec (turn (next cfg order req)) start (r.acts n) =
      some (r.state n) :=
    fun n => hstart ▸ r.exec_acts n
  refine r.exists_finished Mem.lock (fun p => p.finished = true) ?_ ?_ ?_ t
  · intro u
    refine ⟨8 + 5 * bound, fun n => ?_⟩
    have hsteps := stepsOf_le u (hexec n)
    have := hbound n
    omega
  · intro n u hu
    exact (WorldInv.of_exec (hexec n)).progress u (Bool.eq_false_iff.2 hu)
  · intro n u hlock
    have hstep := r.step n
    cases hact : r.act n with
    | none =>
        rw [hact] at hstep
        exact Or.inl (hstep ▸ hlock)
    | some a =>
        rw [hact] at hstep
        exact (WorldInv.of_exec (hexec n)).handover hstep u hlock

/-- The flag and the map agree whenever the lock is free; a caller starts over
only because of an eviction of its entry that began after its lookup, at most
once for each eviction; and so, with finitely many evictions, every call
finishes. -/
theorem removed_flag_agrees (cfg : Config) (order : τ → OsOrder F)
    (req : τ → Request F) :
    (∀ as w, exec (turn (next cfg order req)) start as = some w →
      (w.mem.lock = none →
        (∀ e cell, w.mem.heap[e]? = some cell →
          ((∃ symbol, w.mem.map.lookup symbol = some e) ↔ cell.removed = false)) ∧
        (∀ (e e' : EntryId) (cell cell' : Cell F),
          w.mem.heap[e]? = some cell → w.mem.heap[e']? = some cell' →
          cell.removed = false →
          cell'.removed = false → cell.symbol = cell'.symbol → e = e')) ∧
      (∀ past t e later, w.mem.hist = past ++ .retry t e :: later →
        ∃ before after, past = before ++ .lookup t (some e) :: after ∧
          (∀ ev ∈ after, ev.thread ≠ t) ∧ ∃ u, .snapshot u e ∈ after) ∧
      (∀ t, retriesBy t w.mem.hist ≤ evictionsBegun w.mem.hist ∧
        stepsOf t as ≤ 8 + 5 * evictionsBegun w.mem.hist)) ∧
    (∀ r : FairRun (next cfg order req), r.state 0 = start →
      ∀ bound, (∀ n, evictionsBegun (r.state n).mem.hist ≤ bound) →
        ∀ t, ∃ n, ((r.state n).pc t).finished = true) := by
  refine ⟨?_, fairRun_finished⟩
  intro as w hrun
  have h := WorldInv.of_exec hrun
  refine ⟨?_, ?_, ?_⟩
  · intro hlock
    have hmarked := (h.mem.unlocked hlock).1
    refine ⟨?_, ?_⟩
    · intro e cell hcell
      rw [h.mem.flag.flag e cell hcell, hmarked]
      constructor
      · rintro ⟨symbol, hmap⟩
        rw [h.mem.flag.symbol_eq hmap hcell]
        exact ⟨hmap, fun heq => by cases heq⟩
      · rintro ⟨hmap, -⟩
        exact ⟨_, hmap⟩
    · intro e e' cell cell' hcell hcell' hlive hlive' hsym
      have he := h.mem.flag.lookup_of_live hcell hlive
      have he' := h.mem.flag.lookup_of_live hcell' hlive'
      rw [hsym, he'] at he
      exact (Option.some.inj he).symm
  · intro past t e later hhist
    exact h.mem.trace.explained past _ later hhist
  · intro t
    exact ⟨retriesBy_le t _ h.mem.trace.explained, stepsOf_le t hrun⟩

/-- A call that is over does not move. -/
theorem turn_finished {w : World (Mem τ F) (Pc F) τ}
    (hdone : ∀ t, (w.pc t).finished = true) (a : Turn τ Choice) :
    turn (next cfg order req) w a = none := by
  have hp := hdone a.thread
  rw [turn, Option.map_eq_none_iff, next]
  revert hp
  cases w.pc a.thread with
  | appended | ranged | panicked => cases req a.thread <;> exact fun _ => rfl
  | _ => exact fun hp => by cases hp

/-- In the race for one slot one call starts over once, the flags agree with the map,
and all three finish. -/
theorem removed_flag_agrees_race :
    ∃ w, exec (turn (next Race.config (fun _ => stableOrder) Race.calls)) start
      Race.sections =
        some w ∧
      retriesBy 2 w.mem.hist = 1 ∧ w.mem.lock = none ∧
      (∀ e cell, w.mem.heap[e]? = some cell →
        ((∃ symbol, w.mem.map.lookup symbol = some e) ↔ cell.removed = false)) ∧
      ∃ r : FairRun (next Race.config (fun _ => stableOrder) Race.calls),
      r.state 0 = start ∧
        ∀ t, ∃ n, ((r.state n).pc t).finished = true := by
  obtain ⟨w, hrun, hw⟩ :=
    exists_exec (turn (next Race.config (fun _ => stableOrder) Race.calls)) start
      Race.sections
    (fun w => retriesBy 2 w.mem.hist = 1 ∧ w.mem.lock = none ∧
      ∀ t, (w.pc t).finished = true) (by decide +kernel)
  obtain ⟨hretry, hlock, hdone⟩ := of_decide_eq_true hw
  have hagree := removed_flag_agrees Race.config (fun _ => stableOrder) Race.calls
  refine ⟨w, hrun, hretry, hlock, ((hagree.1 _ w hrun).1 hlock).1,
    .ofExec hrun (turn_finished hdone), rfl, ?_⟩
  exact hagree.2 _ rfl (evictionsBegun w.mem.hist) fun n =>
    evictionsBegun_mono (FairRun.exec_ofExec hrun (turn_finished hdone) n)

end Runs

end Candlestore.Concurrent
