import Candlestore.Lib.System
import Candlestore.Store.Queries

/-!
# Restarts over one data directory

The process that owns a store may die at any moment and be started again with the same
`data_dir`, perhaps with another number of symbols or another ring capacity.  The map,
the rings and the counters start anew; the files stay.  A death in the middle of a spill
leaves a file without a footer, which is what a spill whose write fails leaves, so it is
a call that is refused followed by a restart; one right after the spill is a call that
is accepted followed by a restart.

The ledger of `Store.History` goes on over the restarts.  What was in the rings is lost;
every candle that had reached the directory becomes a closed period of its own, which no
ring capacity cuts.
-/

namespace Candlestore

open Lib

variable {F : Type}

/-- A process that owns the data directory: its configuration, its store and the
ledger of the directory. -/
structure Life (F : Type) where
  cfg : Config
  store : Store F
  ledger : Ledger F

/-- An append, or a new process on the same directory. -/
inductive LifeAct (F : Type) where
  | append (call : Call F)
  | restart (maxSymbols ringCapacity : Nat) (pos : 0 < ringCapacity)

/-- `CandleStore::with_capacity(..).with_data_dir(dir)` over what is in `dir`. -/
def Store.reopen (s : Store F) : Store F := { Store.new with files := s.files }

/-- What the directory has kept, candle by candle. -/
def kept (cfg : Config) (s : Store F) (h : Ledger F) : Ledger F :=
  fun symbol => (spilledRows cfg s h symbol).map fun c => [c]

/-- The first process, over an empty directory. -/
def Life.first (cfg : Config) : Life F := ⟨cfg, Store.new, fun _ => []⟩

/-- A period of one candle is spilled whole. -/
theorem flatten_rtake_singletons {n : Nat} (hn : 0 < n) (l : List (Candle F)) :
    ((l.map fun c => [c]).map fun p => p.rtake n).flatten = l := by
  induction l with
  | nil => rfl
  | cons c l ih =>
      have hone : [c].rtake n = [c] := rtake_of_length_le hn
      rw [List.map_cons, List.map_cons, List.flatten_cons, ih, hone]
      rfl

section Steps

variable [F64 F]

/-- One such event, written into the ledger. -/
def lifeStep (l : Life F) : LifeAct F → Option (Life F)
  | .append call => do
      let (s, result) ← l.store.tryAppend l.cfg call.symbol call.candle call.io
      match result with
      | .ok () =>
          return { l with
            store := s
            ledger := l.ledger.record call.symbol call.candle
              (l.store.isResident call.symbol) }
      | .error _ => return { l with store := s }
  | .restart maxSymbols ringCapacity _ =>
      some
        { cfg := { l.cfg with maxSymbols, ringCapacity }
          store := l.store.reopen
          ledger := kept l.cfg l.store l.ledger }

/-- What one step comes to. -/
inductive LifeMove (l : Life F) : LifeAct F → Life F → Prop where
  | accepted (call : Call F) (s : Store F) :
      l.store.tryAppend l.cfg call.symbol call.candle call.io = some (s, .ok ()) →
      LifeMove l (.append call) { l with
        store := s
        ledger := l.ledger.record call.symbol call.candle
          (l.store.isResident call.symbol) }
  | refused (call : Call F) (s : Store F) (err : AppendError) :
      l.store.tryAppend l.cfg call.symbol call.candle call.io = some (s, .error err) →
      LifeMove l (.append call) { l with store := s }
  | restarted (maxSymbols ringCapacity : Nat) (hcap : 0 < ringCapacity) :
      LifeMove l (.restart maxSymbols ringCapacity hcap)
        { cfg := { l.cfg with maxSymbols, ringCapacity }
          store := l.store.reopen
          ledger := kept l.cfg l.store l.ledger }

theorem lifeStep_move {l l' : Life F} {a : LifeAct F} (h : lifeStep l a = some l') :
    LifeMove l a l' := by
  cases a with
  | append call =>
      simp only [lifeStep, Option.bind_eq_bind, Option.bind_eq_some_iff] at h
      obtain ⟨⟨s, result⟩, hcall, hrest⟩ := h
      cases result with
      | ok u =>
          cases hrest
          exact .accepted call s hcall
      | error err =>
          cases hrest
          exact .refused call s err hcall
  | restart maxSymbols ringCapacity pos =>
      cases h
      exact .restarted maxSymbols ringCapacity pos

/-! ## The ledger over restarts -/

omit [F64 F] in
theorem spilledRows_reopen {cfg cfg' : Config} (hcap : 0 < cfg'.ringCapacity)
    (s : Store F) (h : Ledger F) (k : Symbol) :
    spilledRows cfg' s.reopen (kept cfg s h) k = spilledRows cfg s h k := by
  have habsent : s.reopen.map.lookup k = none := AList.lookup_empty k
  rw [spilledRows, closedPeriods_absent _ _ k habsent]
  exact flatten_rtake_singletons hcap _

omit [F64 F] in
theorem HistoryInv.reopen {cfg : Config} {s : Store F} {h : Ledger F}
    (inv : HistoryInv cfg s h) (maxSymbols : Nat) {ringCapacity : Nat}
    (hcap : 0 < ringCapacity) :
    HistoryInv { cfg with maxSymbols, ringCapacity } s.reopen (kept cfg s h) := by
  have hempty : ∀ k e, s.reopen.map.lookup k ≠ some e := by
    intro k e hk
    rw [show s.reopen.map.lookup k = none from AList.lookup_empty k] at hk
    cases hk
  refine
    { live := fun k e hk => absurd hk (hempty k e)
      capacity := fun k e hk => absurd hk (hempty k e)
      ring := fun k e hk => absurd hk (hempty k e)
      advertised := inv.advertised
      cold := ?_ }
  intro hdir d c
  have hrows : ∀ k, spilledRows { cfg with maxSymbols, ringCapacity } s.reopen
    (kept cfg s h) k =
      spilledRows cfg s h k := fun k => spilledRows_reopen hcap s h k
  simp only [hrows]
  exact inv.cold hdir d c

/-- What every process finds, and keeps to. -/
structure LifeInv (cfg : Config) (l : Life F) : Prop where
  history : HistoryInv l.cfg l.store l.ledger
  dataDir : l.cfg.dataDir = cfg.dataDir
  uni : l.cfg.uni = cfg.uni

theorem LifeInv.step {cfg : Config} {l l' : Life F} {a : LifeAct F} (h : LifeInv cfg l)
    (hmove : LifeMove l a l') : LifeInv cfg l' := by
  cases hmove with
  | accepted call s hcall =>
      exact ⟨(h.history.append call.io _ hcall).1 rfl, h.dataDir, h.uni⟩
  | refused call s err hcall =>
      exact ⟨(h.history.append call.io _ hcall).2 err rfl, h.dataDir, h.uni⟩
  | restarted maxSymbols ringCapacity hcap =>
      exact ⟨h.history.reopen maxSymbols hcap, h.dataDir, h.uni⟩

/-- A call never takes a readable row out of the directory. -/
theorem HistoryInv.stored_mono {cfg : Config} {s s' : Store F} {h : Ledger F}
    (inv : HistoryInv cfg s h) {symbol : Symbol} {c : Candle F} {io : SpillIo}
    {r : Except AppendError Unit} (hcall : s.tryAppend cfg symbol c io = some (s', r))
    {d : List Char} {x : Candle F} (hx : x ∈ stored s.files d) :
    x ∈ stored s'.files d := by
  have heffect := tryAppend_effect cfg s s' symbol c io r inv.live inv.toVec_ne_nil hcall
  cases heffect with
  | invalid _ _ hfiles => rwa [hfiles]
  | hit _ _ _ _ hfiles => rwa [hfiles]
  | admitted _ _ _ _ hfiles => rwa [hfiles]
  | evicted _ key e _ _ hkey _ hfiles =>
      rcases hfiles with ⟨_, hfiles⟩ | ⟨_, hspill⟩
      · rwa [hfiles]
      · obtain ⟨_, hrows⟩ :=
          spill_ok_stored (inv.toVec_ne_nil key e hkey) inv.advertised hspill
        exact (hrows d x).2 (Or.inl hx)
  | refused key e err _ _ hkey _ hspill =>
      obtain ⟨_, hsame⟩ :=
        spill_error_stored (inv.toVec_ne_nil key e hkey) inv.advertised hspill
      rwa [hsame d]

theorem LifeInv.stored_mono {cfg : Config} {l l' : Life F} {a : LifeAct F}
    (h : LifeInv cfg l) (hmove : LifeMove l a l') {d : List Char} {x : Candle F}
    (hx : x ∈ stored l.store.files d) : x ∈ stored l'.store.files d := by
  cases hmove with
  | accepted call s hcall => exact h.history.stored_mono hcall hx
  | refused call s err hcall => exact h.history.stored_mono hcall hx
  | restarted => exact hx

/-- Only symbols that were appended to have a ledger line. -/
theorem ledger_used {cfg : Config} {l : Life F} {as : List (LifeAct F)}
    (hrun : exec lifeStep (Life.first cfg) as = some l) {k : Symbol}
    (hk : l.ledger k ≠ []) : ∃ call, .append call ∈ as ∧ call.symbol = k := by
  refine exec_induction (P := fun as l => l.ledger k ≠ [] → ∃ call, .append call ∈ as ∧
    call.symbol = k) (fun h => absurd rfl h) ?_ hrun hk
  intro as a m m' _ ih hstep hk
  have hearlier : m.ledger k ≠ [] → ∃ call, .append call ∈ as ++ [a] ∧
      call.symbol = k := by
    intro hold
    obtain ⟨call, hmem, hcall⟩ := ih hold
    exact ⟨call, List.mem_append_left _ hmem, hcall⟩
  cases lifeStep_move hstep with
  | accepted call s hcall =>
      by_cases heq : call.symbol = k
      · exact ⟨call, List.mem_append_right _ (List.mem_singleton_self _), heq⟩
      · refine hearlier fun hnil => hk ?_
        rw [← hnil]
        exact Function.update_of_ne (Ne.symm heq) _ _
  | refused call s err hcall => exact hearlier hk
  | restarted maxSymbols ringCapacity hcap =>
      refine hearlier fun hnil => hk ?_
      show (spilledRows m.cfg m.store m.ledger k).map _ = []
      rw [spilledRows, closedPeriods, hnil]
      cases m.store.isResident k <;> rfl

/-! ## Queries over restarts -/

/-- What has once been spilled is never lost: after any further appends,
failed spills and restarts, with whatever sizes, a query of its window returns
it; and altogether a query returns what the directory has kept of earlier
processes and what this one retains. -/
theorem spilled_candles_survive_restarts (cfg : Config) (hdir : cfg.dataDir = true)
    {l l' : Life F} {as bs : List (LifeAct F)}
    (hrun : exec lifeStep (Life.first cfg) as = some l)
    (hlater : exec lifeStep l bs = some l') (syms : Set Symbol)
    (hinj : Set.InjOn (escapeSymbol cfg.uni) syms)
    (hused : ∀ call, .append call ∈ as ++ bs → call.symbol ∈ syms) {symbol : Symbol}
    (hsym : symbol ∈ syms) (hts : StrictBy Candle.ts (l'.ledger symbol).flatten)
    (o : OsOrder F) (fromTs toTs : Int) :
    l'.store.range l'.cfg o symbol fromTs toTs =
        (retained l'.cfg l'.ledger symbol).filter (inWindow fromTs toTs) ∧
      ∀ c ∈ spilledRows l.cfg l.store l.ledger symbol, inWindow fromTs toTs c = true →
        c ∈ l'.store.range l'.cfg o symbol fromTs toTs := by
  have hstart : LifeInv cfg (Life.first cfg : Life F) := ⟨historyInv_new cfg, rfl, rfl⟩
  have hl : LifeInv cfg l :=
    exec_invariant (fun _ _ _ h hstep => h.step (lifeStep_move hstep)) hrun hstart
  -- Along the rest of the run the directory of the symbol only grows.
  obtain ⟨hl', hgrows⟩ : LifeInv cfg l' ∧ ∀ x,
      x ∈ stored l.store.files (escapeSymbol cfg.uni symbol) →
      x ∈ stored l'.store.files (escapeSymbol cfg.uni symbol) := by
    refine exec_invariant (P := fun m => LifeInv cfg m ∧ ∀ x,
      x ∈ stored l.store.files (escapeSymbol cfg.uni symbol) →
      x ∈ stored m.store.files (escapeSymbol cfg.uni symbol)) ?_ hlater ⟨hl,
      fun _ hx => hx⟩
    intro m a m' ⟨hm, hgrown⟩ hstep
    exact ⟨hm.step (lifeStep_move hstep),
      fun x hx => hm.stored_mono (lifeStep_move hstep) (hgrown x hx)⟩
  have hdir' : l'.cfg.dataDir = true := hl'.dataDir.trans hdir
  have hlines : ∀ k, l'.ledger k ≠ [] → k ∈ syms := by
    intro k hk
    obtain ⟨call, hmem, rfl⟩ := ledger_used (exec_append_eq_some.2 ⟨l, hrun, hlater⟩) hk
    exact hused call hmem
  have hinj' : Set.InjOn (escapeSymbol l'.cfg.uni) syms := hl'.uni ▸ hinj
  have hrange := (hl'.history.range_eq hdir' hinj' hlines hsym hts o fromTs toTs).1
  refine ⟨hrange, fun c hc hwindow => ?_⟩
  have hspilled : c ∈ stored l.store.files (escapeSymbol cfg.uni symbol) := by
    rw [hl.history.cold (hl.dataDir.trans hdir)]
    exact ⟨symbol, by rw [hl.uni], hc⟩
  have hkept : c ∈ spilledRows l'.cfg l'.store l'.ledger symbol := by
    refine (hl'.history.mem_stored_iff hdir' hinj' hlines hsym c).1 ?_
    rw [hl'.uni]
    exact hgrows c hspilled
  rw [hrange, List.mem_filter, hl'.history.retained_eq symbol]
  exact ⟨List.mem_append_left _ hkept, hwindow⟩

/-- The candle of `A` is spilled, that of `B` dies with the first process; the second
one has rings of another size. -/
theorem spilled_candles_survive_restarts_resized :
    let cfg : Config := ⟨1, 2, true, fun _ => false⟩
    ∃ l l' : Life ℚ,
      exec lifeStep (Life.first cfg) [.append ⟨['A'], flatCandle 0 1, .ok⟩,
        .append ⟨['B'], flatCandle 5 1, .ok⟩] = some l ∧
      exec lifeStep l [.restart 2 1 (by decide), .append ⟨['A'], flatCandle 3 1, .ok⟩] =
        some l' ∧
      l'.store.range l'.cfg stableOrder ['A'] 0 9 =
          (retained l'.cfg l'.ledger ['A']).filter (inWindow 0 9) ∧
        ∀ c ∈ spilledRows l.cfg l.store l.ledger ['A'], inWindow 0 9 c = true →
          c ∈ l'.store.range l'.cfg stableOrder ['A'] 0 9 := by
  intro cfg
  obtain ⟨l, hrun, hfirst⟩ := exists_exec lifeStep (Life.first cfg : Life ℚ)
    [.append ⟨['A'], flatCandle 0 1, .ok⟩, .append ⟨['B'], flatCandle 5 1, .ok⟩]
    (fun l => (exec lifeStep l
      [.restart 2 1 (by decide), .append ⟨['A'], flatCandle 3 1, .ok⟩]).any fun l' =>
        decide (StrictBy Candle.ts (l'.ledger ['A']).flatten)) (by decide +kernel)
  obtain ⟨l', hlater, hend⟩ := (Option.any_eq_true _ _).1 hfirst
  refine ⟨l, l', hrun, hlater, ?_⟩
  refine spilled_candles_survive_restarts cfg rfl hrun hlater {['A'], ['B']} ?_ ?_
    (Or.inl rfl) (of_decide_eq_true hend) _ _ _
  · rintro a (rfl | rfl) b (rfl | rfl) <;> decide
  · intro call hcall
    simp only [List.cons_append, List.nil_append, List.mem_cons, LifeAct.append.injEq,
      reduceCtorEq, false_or, List.not_mem_nil, or_false] at hcall
    rcases hcall with rfl | rfl | rfl
    · exact Or.inl rfl
    · exact Or.inr rfl
    · exact Or.inl rfl

end Steps

end Candlestore
