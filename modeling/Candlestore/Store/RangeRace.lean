import Mathlib.Data.List.Flatten
import Candlestore.Store.Conservation

/-!
# Range queries racing with appends and evictions

A range query reads the map, then the ring of the entry it found, then the cold
directory, and holds no lock over the three reads.  In between, the entry can be
snapshotted, spilled, dropped and inserted again.  What carries a candle through
is that it is never in neither place: the rows of an evicted snapshot are
readable before the entry leaves the map, and an entry that left the map keeps
the ring it was evicted with.
-/

namespace Candlestore.Concurrent

open Lib

variable {τ F : Type}

/-! ## Histories without wrap or reordering -/

/-- The timestamps of a symbol only grow, and no ring of it has wrapped. -/
structure Regular (symbol : Symbol) (hist : List (Event τ F)) : Prop where
  strict : StrictBy Candle.ts (pushesUnder symbol hist)
  kept : lostUnder symbol hist = []

section Regular

variable {symbol : Symbol} {hist evs : List (Event τ F)} {c : Candle F}

theorem Regular.of_append (h : Regular symbol (hist ++ evs)) : Regular symbol hist where
  strict := by
    have hstrict := h.strict
    rw [pushesUnder, List.flatMap_append] at hstrict
    exact (List.pairwise_append.1 hstrict).1
  kept := by
    have hkept := h.kept
    rw [lostUnder, List.flatMap_append, List.append_eq_nil_iff] at hkept
    exact hkept.1

theorem mem_pushesUnder_append (hc : c ∈ pushesUnder symbol hist) :
    c ∈ pushesUnder symbol (hist ++ evs) :=
  ((List.sublist_append_left hist evs).flatMap _).subset hc

theorem mem_pushesTo_append {e : EntryId} (hc : c ∈ pushesTo e hist) :
    c ∈ pushesTo e (hist ++ evs) :=
  ((List.sublist_append_left hist evs).flatMap _).subset hc

theorem exists_push_of_mem_pushesTo {e : EntryId} (hc : c ∈ pushesTo e hist) :
    ∃ t symbol lost, .push t e symbol c lost ∈ hist := by
  obtain ⟨ev, hev, hin⟩ := List.mem_flatMap.1 hc
  cases ev with
  | push t e' symbol candle lost =>
      dsimp only at hin
      split at hin
      · rename_i he
        subst he
        cases List.mem_singleton.1 hin
        exact ⟨t, symbol, lost, hev⟩
      · cases hin
  | _ => cases hin

theorem mem_pushesUnder_of_push {t : τ} {e : EntryId} {lost : Option (Candle F)}
    (hmem : .push t e symbol c lost ∈ hist) : c ∈ pushesUnder symbol hist :=
  List.mem_flatMap.2 ⟨_, hmem, by simp⟩

theorem evictedUnder_sublist (uni : Char → Bool) (symbol : Symbol)
    (hist : List (Event τ F)) :
    (evictedUnder symbol hist).Sublist
      (evictedIn uni (escapeSymbol uni symbol) hist) := by
  refine List.Sublist.flatMap_right hist fun ev _ => ?_
  cases ev with
  | evicted t e symbol' snapshot =>
      dsimp only
      split
      · rename_i hsym
        rw [if_pos (congrArg _ hsym)]
      · exact List.nil_sublist _
  | _ => exact List.Sublist.refl _

end Regular

namespace RingInv

variable {heap : List (Cell F)} {map : AList fun _ : Symbol => EntryId}
  {hist : List (Event τ F)} (h : RingInv heap map hist) {e : EntryId} {cell : Cell F}
  (hcell : heap[e]? = some cell)
include h hcell

theorem symbol_of_push {t : τ} {symbol : Symbol} {candle : Candle F}
    {lost : Option (Candle F)} (hmem : .push t e symbol candle lost ∈ hist) :
    symbol = cell.symbol := by
  obtain ⟨cell', hcell', hsym⟩ := h.symbols t e symbol candle lost hmem
  rw [hcell] at hcell'
  cases hcell'
  exact hsym.symm

theorem pushesTo_sublist : (pushesTo e hist).Sublist (pushesUnder cell.symbol hist) := by
  refine List.Sublist.flatMap_right hist fun ev hev => ?_
  cases ev with
  | push t e' symbol candle lost =>
      dsimp only
      split
      · rename_i he
        subst he
        rw [if_pos (h.symbol_of_push hcell hev)]
      · exact List.nil_sublist _
  | _ => exact List.Sublist.refl _

theorem lostTo_sublist : (lostTo e hist).Sublist (lostUnder cell.symbol hist) := by
  refine List.Sublist.flatMap_right hist fun ev hev => ?_
  cases ev with
  | push t e' symbol candle lost =>
      dsimp only
      split
      · rename_i he
        subst he
        rw [if_pos (h.symbol_of_push hcell hev)]
      · exact List.nil_sublist _
  | _ => exact List.Sublist.refl _

theorem mem_pushesTo_of_mem_toVec {c : Candle F} (hc : c ∈ cell.buf.toVec) :
    c ∈ pushesTo e hist := by
  rw [h.rings e cell hcell]
  exact List.mem_append_right _ hc

/-- A ring that has not wrapped holds all that was pushed into it. -/
theorem toVec_eq_pushesTo (hreg : Regular cell.symbol hist) :
    cell.buf.toVec = pushesTo e hist := by
  have hlost : lostTo e hist = [] := by
    rw [← List.sublist_nil, ← hreg.kept]
    exact h.lostTo_sublist hcell
  rw [h.rings e cell hcell, hlost, List.nil_append]

theorem toVec_strict (hreg : Regular cell.symbol hist) :
    StrictBy Candle.ts cell.buf.toVec := by
  rw [h.toVec_eq_pushesTo hcell hreg]
  exact hreg.strict.sublist (h.pushesTo_sublist hcell)

end RingInv

/-- A candle pushed under a symbol is in the ring the map leads to, or can be
read from the symbol's cold directory. -/
theorem MemInv.hot_or_stored {cfg : Config} {m : Mem τ F} (h : MemInv cfg m)
    (hdir : cfg.dataDir = true) {symbol : Symbol} (hreg : Regular symbol m.hist)
    {c : Candle F} (hc : c ∈ pushesUnder symbol m.hist) :
    (∃ e, m.map.lookup symbol = some e ∧ c ∈ pushesTo e m.hist) ∨
      c ∈ stored m.files (escapeSymbol cfg.uni symbol) := by
  rw [(h.ring.conserved symbol).mem_iff, hreg.kept, List.nil_append, List.mem_append]
    at hc
  rcases hc with hhot | hcold
  · cases hfound : m.map.lookup symbol with
    | none =>
        rw [hotCandles, hfound] at hhot
        cases hhot
    | some e =>
        obtain ⟨cell, hcell, -⟩ := h.flag.mapped symbol e hfound
        rw [hotCandles_of_lookup hfound hcell] at hhot
        exact Or.inl ⟨e, rfl, h.ring.mem_pushesTo_of_mem_toVec hcell hhot⟩
  · rw [h.cold.stored hdir]
    exact Or.inr (List.mem_append_left _ ((evictedUnder_sublist _ _ _).subset hcold))

/-! ## Where cold rows come from -/

section Cold

variable [DecidableEq τ] {cfg : Config} {req : τ → Request F}

/-- A snapshot that has been written is the ring of the entry being evicted. -/
theorem CallOk.marked_of_pending {t : τ} {m : Mem τ F} {p : Pc F}
    (h : CallOk cfg t m req p) (hlock : m.lock = some t) (hdir : cfg.dataDir = true)
    {v : Victim F} (hv : m.pending = some v) : Marked m v := by
  have hnone : m.pending ≠ none := by
    rw [hv]
    exact Option.some_ne_none v
  have hholds := h.lock_iff.1 hlock
  rw [CallOk] at h
  cases hreq : req t with
  | append symbol candle =>
      rw [hreq] at h
      cases p with
      | evict => exact absurd h.2.2.1 hnone
      | spill => exact absurd h.2.2 hnone
      | writing => exact absurd h.2.2.1 hnone
      | abort => exact absurd h.2.2 hnone
      | install fresh victim =>
          cases victim with
          | none => exact absurd h.2.2 hnone
          | some v' =>
              rcases h.2.2 hdir with hsome | ⟨-, hempty⟩
              · rw [hv] at hsome
                cases hsome
                exact h.2.1
              · exact absurd hempty hnone
      | _ => cases hholds
  | range symbol fromTs toTs =>
      rw [hreq] at h
      cases p with
      | evict | spill | writing | abort | install => exact h.elim
      | _ => cases hholds

variable {w : World (Mem τ F) (Pc F) τ} {symbol : Symbol}

theorem WorldInv.marked_of_pending (h : WorldInv cfg req w) (hdir : cfg.dataDir = true)
    {v : Victim F} (hv : w.mem.pending = some v) : Marked w.mem v := by
  cases hlock : w.mem.lock with
  | none =>
      rw [(h.mem.unlocked hlock).2] at hv
      cases hv
  | some t => exact (h.pcs t).marked_of_pending hlock hdir hv

/-- No appended symbol but this one has the symbol's cold directory. -/
def OwnDirectory (cfg : Config) (req : τ → Request F) (symbol : Symbol) : Prop :=
  ∀ t symbol' candle, req t = .append symbol' candle →
    escapeSymbol cfg.uni symbol' = escapeSymbol cfg.uni symbol → symbol' = symbol

theorem WorldInv.pushed_of_mem_ring (h : WorldInv cfg req w)
    (hown : OwnDirectory cfg req symbol) {e : EntryId} {cell : Cell F}
    (hcell : w.mem.heap[e]? = some cell)
    (hdir : escapeSymbol cfg.uni cell.symbol = escapeSymbol cfg.uni symbol)
    {c : Candle F} (hc : c ∈ cell.buf.toVec) : c ∈ pushesUnder symbol w.mem.hist := by
  have hto := h.mem.ring.mem_pushesTo_of_mem_toVec hcell hc
  obtain ⟨t, symbol', lost, hmem⟩ := exists_push_of_mem_pushesTo hto
  have hsym := h.mem.ring.symbol_of_push hcell hmem
  have hreq := h.push_request t e symbol' c lost hmem
  rw [← hown t symbol' c hreq (by rw [hsym, hdir])]
  exact mem_pushesUnder_of_push hmem

/-- The rows of a symbol's directory were pushed under that symbol. -/
theorem WorldInv.pushed_of_mem_stored (h : WorldInv cfg req w)
    (hdir : cfg.dataDir = true) (hown : OwnDirectory cfg req symbol) {c : Candle F}
    (hc : c ∈ stored w.mem.files (escapeSymbol cfg.uni symbol)) :
    c ∈ pushesUnder symbol w.mem.hist := by
  rw [h.mem.cold.stored hdir, List.mem_append] at hc
  rcases hc with hevicted | hpending
  · obtain ⟨ev, hev, hc⟩ := List.mem_flatMap.1 hevicted
    cases ev with
    | evicted t e symbol' snapshot =>
        dsimp only at hc
        split at hc
        · rename_i hsame
          obtain ⟨-, cell, hcell, rfl, rfl⟩ :=
            h.mem.ring.snapshots t e symbol' snapshot hev
          exact h.pushed_of_mem_ring hown hcell hsame hc
        · cases hc
    | _ => cases hc
  · cases hv : w.mem.pending with
    | none =>
        rw [hv] at hpending
        cases hpending
    | some v =>
        have hmarked := h.marked_of_pending hdir hv
        obtain ⟨cell, hcell, -, hsnap⟩ := hmarked.cell
        rw [hv, pendingIn] at hpending
        split at hpending
        · rename_i hsame
          rw [← h.mem.flag.symbol_eq hmarked.mapped hcell] at hsame
          rw [hsnap] at hpending
          exact h.pushed_of_mem_ring hown hcell hsame hpending
        · cases hpending

end Cold

/-! ## The three reads -/

section Query

variable (cfg : Config) (settled : Candle F → Prop) (symbol : Symbol) (fromTs toTs : Int)
  (m : Mem τ F)

/-- What a query may rely on about the candles that were settled when it began:
before each read, whatever is not in the part already read can still be found in
the parts to come. -/
def QueryOk : Pc F → Prop
  | .idle => ∀ c, settled c → c ∈ pushesUnder symbol m.hist
  | .rangeHot found =>
      (∀ e, found = some e → ∃ cell, m.heap[e]? = some cell ∧ cell.symbol = symbol) ∧
      (Regular symbol m.hist → ∀ c, settled c →
        (∃ e, found = some e ∧ c ∈ pushesTo e m.hist) ∨
          c ∈ stored m.files (escapeSymbol cfg.uni symbol))
  | .rangeCold hot => Regular symbol m.hist →
      (∀ c ∈ hot, c ∈ pushesUnder symbol m.hist) ∧
      (∀ c, settled c → fromTs ≤ c.ts → c.ts ≤ toTs →
        c ∈ hot ∨ c ∈ stored m.files (escapeSymbol cfg.uni symbol))
  | .ranged result => Regular symbol m.hist →
      (∀ c ∈ result, c ∈ pushesUnder symbol m.hist) ∧
      (∀ c, settled c → fromTs ≤ c.ts → c.ts ≤ toTs → c ∈ result)
  | _ => True

end Query

section Steps

variable {cfg : Config} {settled : Candle F → Prop} {symbol : Symbol} {fromTs toTs : Int}

/-- A step of another call moves candles only from the ring to the directory. -/
theorem Effect.queryOk {t : τ} {evs : List (Event τ F)} {m m' : Mem τ F}
    (h : Effect t evs m m') {p : Pc F}
    (hok : QueryOk cfg settled symbol fromTs toTs m p) :
    QueryOk cfg settled symbol fromTs toTs m' p := by
  cases p with
  | idle =>
      intro c hc
      rw [h.hist]
      exact mem_pushesUnder_append (hok c hc)
  | rangeHot found =>
      refine ⟨?_, ?_⟩
      · intro e he
        obtain ⟨cell, hcell, hsym⟩ := hok.1 e he
        obtain ⟨cell', hcell', heff⟩ := h.cells e cell hcell
        exact ⟨cell', hcell', heff.symbol.trans hsym⟩
      · intro hreg c hc
        rw [h.hist] at hreg ⊢
        rcases hok.2 hreg.of_append c hc with ⟨e, he, hto⟩ | hcold
        · exact Or.inl ⟨e, he, mem_pushesTo_append hto⟩
        · exact Or.inr (h.rows _ hcold)
  | rangeCold hot =>
      intro hreg
      rw [h.hist] at hreg ⊢
      obtain ⟨hpushed, hfound⟩ := hok hreg.of_append
      exact ⟨fun c hc => mem_pushesUnder_append (hpushed c hc),
        fun c hc hfrom hto => (hfound c hc hfrom hto).imp_right (h.rows _ ·)⟩
  | ranged result =>
      intro hreg
      rw [h.hist] at hreg ⊢
      obtain ⟨hpushed, hfound⟩ := hok hreg.of_append
      exact ⟨fun c hc => mem_pushesUnder_append (hpushed c hc), hfound⟩
  | _ => trivial

theorem QueryOk.lookup {m : Mem τ F} (h : MemInv cfg m) (hdir : cfg.dataDir = true)
    (hok : QueryOk cfg settled symbol fromTs toTs m .idle) :
    QueryOk cfg settled symbol fromTs toTs m (.rangeHot (m.map.lookup symbol)) :=
  ⟨fun e he => h.flag.mapped symbol e he,
    fun hreg c hc => h.hot_or_stored hdir hreg (hok c hc)⟩

/-- The ring is read whole, also after its entry was evicted. -/
theorem QueryOk.readHot [F64 F] {m : Mem τ F} (h : MemInv cfg m) {e : EntryId}
    {cell : Cell F} (hcell : m.heap[e]? = some cell)
    (hok : QueryOk cfg settled symbol fromTs toTs m (.rangeHot (some e))) :
    QueryOk cfg settled symbol fromTs toTs m
      (.rangeCold (cell.buf.range fromTs toTs)) := by
  intro hreg
  obtain ⟨cell', hcell', hsym⟩ := hok.1 e rfl
  rw [hcell] at hcell'
  cases hcell'
  subst hsym
  refine ⟨?_, ?_⟩
  · intro c hc
    have hring := cell.buf.mem_toVec_of_mem_range fromTs toTs c hc
    exact (h.ring.pushesTo_sublist hcell).subset
      (h.ring.mem_pushesTo_of_mem_toVec hcell hring)
  · intro c hc hfrom hto
    rcases hok.2 hreg c hc with ⟨e', he', hpushed⟩ | hcold
    · cases he'
      rw [← h.ring.toVec_eq_pushesTo hcell hreg] at hpushed
      have hsorted := (h.ring.toVec_strict hcell hreg).sortedBy
      rw [cell.buf.range_eq_filter fromTs toTs hsorted]
      exact Or.inl (List.mem_filter.2 ⟨hpushed, decide_eq_true ⟨hfrom, hto⟩⟩)
    · exact Or.inr hcold

variable [DecidableEq τ] {req : τ → Request F} {w : World (Mem τ F) (Pc F) τ}

/-- The merge of the two halves: with unique timestamps the deduplication of
either half only ever drops a second copy. -/
theorem QueryOk.readCold (h : WorldInv cfg req w) (hdir : cfg.dataDir = true)
    (hown : OwnDirectory cfg req symbol) (o : OsOrder F) {hot : List (Candle F)}
    (hok : QueryOk cfg settled symbol fromTs toTs w.mem (.rangeCold hot)) :
    QueryOk cfg settled symbol fromTs toTs w.mem
      (.ranged (Store.joinHotCold hot
        (queryCold cfg.uni o w.mem.files symbol fromTs toTs))) := by
  intro hreg
  obtain ⟨hhot, hfound⟩ := hok hreg
  rw [joinHotCold_eq]
  have hcold : ∀ c ∈ queryCold cfg.uni o w.mem.files symbol fromTs toTs,
      c ∈ pushesUnder symbol w.mem.hist := by
    intro c hc
    exact h.pushed_of_mem_stored hdir hown
      (mem_of_mem_queryCold cfg.uni o w.mem.files symbol fromTs toTs c hc).1
  refine ⟨?_, ?_⟩
  · intro c hc
    exact (mem_or_mem_of_mem_mergeBy Candle.ts _ _ c hc).elim (hcold c) (hhot c)
  · intro c hc hfrom hto
    rcases hfound c hc hfrom hto with hmem | hmem
    · exact (sublist_mergeBy Candle.ts _ _).subset hmem
    · have hpushed := h.pushed_of_mem_stored hdir hown hmem
      obtain ⟨y, hy, hyc⟩ := exists_ts_queryCold cfg.uni o w.mem.files symbol fromTs toTs
        h.mem.cold.advertised c hmem hfrom hto
      have hsame := hreg.strict.eq_of_key_eq Candle.ts (hcold y hy) hpushed hyc
      subst hsame
      rcases mem_mergeBy_left Candle.ts _ hot y hy with hin | ⟨z, hz, hzy⟩
      · exact hin
      · have hsame := hreg.strict.eq_of_key_eq Candle.ts (hhot z hz) hpushed hzy
        subst hsame
        exact (sublist_mergeBy Candle.ts _ _).subset hz

variable [F64 F]

/-- A query's own steps. -/
theorem queryOk_rangeStep (h : WorldInv cfg req w) (hdir : cfg.dataDir = true)
    (hown : OwnDirectory cfg req symbol) {o : OsOrder F} {p p' : Pc F} {m' : Mem τ F}
    (hok : QueryOk cfg settled symbol fromTs toTs w.mem p)
    (hstep : rangeStep cfg o symbol fromTs toTs w.mem p = some (m', p')) :
    QueryOk cfg settled symbol fromTs toTs m' p' := by
  cases p with
  | idle =>
      rw [rangeStep] at hstep
      split at hstep
      · cases hstep
      · cases hstep
        exact hok.lookup h.mem hdir
  | rangeHot found =>
      cases found with
      | none =>
          cases hstep
          intro hreg
          refine ⟨fun c hc => (by cases hc), fun c hc _ _ => ?_⟩
          rcases hok.2 hreg c hc with ⟨e, he, -⟩ | hcold
          · cases he
          · exact Or.inr hcold
      | some e =>
          rw [rangeStep] at hstep
          split at hstep
          · rename_i cell hcell
            cases hstep
            exact hok.readHot h.mem hcell
          · cases hstep
  | rangeCold hot =>
      rw [rangeStep, if_pos hdir] at hstep
      cases hstep
      exact hok.readCold h hdir hown o
  | _ => cases hstep

variable {order : τ → OsOrder F} {w' : World (Mem τ F) (Pc F) τ}

theorem queryOk_turn (h : WorldInv cfg req w) (hdir : cfg.dataDir = true)
    (hown : OwnDirectory cfg req symbol) {t : τ}
    (hreq : req t = .range symbol fromTs toTs)
    (hok : QueryOk cfg settled symbol fromTs toTs w.mem (w.pc t)) {a : Turn τ Choice}
    (hstep : turn (next cfg order req) w a = some w') :
    QueryOk cfg settled symbol fromTs toTs w'.mem (w'.pc t) := by
  obtain ⟨m, p, hnext, rfl⟩ := turn_eq_some.1 hstep
  by_cases ht : t = a.thread
  · subst ht
    rw [next, hreq] at hnext
    simpa only [Function.update_self] using queryOk_rangeStep h hdir hown hok hnext
  · obtain ⟨evs, heff⟩ := (sound_next h.mem (h.pcs a.thread) hnext).effect
    simpa only [Function.update_of_ne ht] using heff.queryOk hok

end Steps

/-! ## Settled candles -/

section Runs

variable [DecidableEq τ] {cfg : Config} {req : τ → Request F}
  {w₀ w : World (Mem τ F) (Pc F) τ}

theorem WorldInv.pushed_of_returned (h : WorldInv cfg req w) {t : τ} {symbol : Symbol}
    {candle : Candle F} (hreq : req t = .append symbol candle)
    (hpc : w.pc t = .appended (.ok ())) : candle ∈ pushesUnder symbol w.mem.hist := by
  have hok := h.pcs t
  rw [CallOk, hreq, hpc] at hok
  obtain ⟨e, he⟩ := hok.1.pushes
  have hmem : (e, symbol, candle) ∈ pushesBy t w.mem.hist := by
    rw [he]
    exact List.mem_singleton_self _
  obtain ⟨lost, hpush⟩ := (mem_pushesBy t _).1 hmem
  exact mem_pushesUnder_of_push hpush

variable [F64 F] {order : τ → OsOrder F} {before during : List (Turn τ Choice)}

/-- A query begins in `w₀` and has returned `result` in `w`, with any steps of
other calls in between.  If the timestamps of its symbol only grow, no ring of
the symbol has wrapped and no other symbol shares its directory, then every
candle of the window that was accepted before the query began is in the result,
and everything in the result was pushed under the symbol. -/
theorem range_returns_settled (hdir : cfg.dataDir = true) {t : τ} {symbol : Symbol}
    {fromTs toTs : Int} {result : List (Candle F)}
    (hreq : req t = .range symbol fromTs toTs)
    (hbefore : exec (turn (next cfg order req)) start before = some w₀)
    (hidle : w₀.pc t = .idle)
    (hduring : exec (turn (next cfg order req)) w₀ during = some w)
    (hdone : w.pc t = .ranged result)
    (hstrict : StrictBy Candle.ts (pushesUnder symbol w.mem.hist))
    (hwrap : lostUnder symbol w.mem.hist = []) (hown : OwnDirectory cfg req symbol) :
    (∀ u candle, req u = .append symbol candle → w₀.pc u = .appended (.ok ()) →
      fromTs ≤ candle.ts → candle.ts ≤ toTs → candle ∈ result) ∧
    (∀ candle ∈ result, candle ∈ pushesUnder symbol w.mem.hist) := by
  have h₀ := WorldInv.of_exec hbefore
  let settled : Candle F → Prop := fun candle =>
    ∃ u, req u = .append symbol candle ∧ w₀.pc u = .appended (.ok ())
  have hinv := exec_invariant (P := fun v => WorldInv cfg req v ∧
    QueryOk cfg settled symbol fromTs toTs v.mem (v.pc t)) ?_ hduring ⟨h₀, ?_⟩
  · have hok := hinv.2
    rw [hdone] at hok
    obtain ⟨hpushed, hfound⟩ := hok ⟨hstrict, hwrap⟩
    exact ⟨fun u candle hu hpc => hfound candle ⟨u, hu, hpc⟩, hpushed⟩
  · rintro v a v' ⟨hv, hok⟩ hstep
    exact ⟨hv.step hstep, queryOk_turn hv hdir hown hreq hok hstep⟩
  · rw [hidle]
    rintro candle ⟨u, hu, hpc⟩
    exact h₀.pushed_of_returned hu hpc

/-- A query of `A` finds the entry in the map.  Before it reads the ring, another
call has flagged the entry and created a file for it, and before it reads the
directory the entry is gone from the map. -/
theorem range_returns_settled_evicted :
    let cfg : Config := ⟨1, 2, true, fun _ => false⟩
    let req : Fin 3 → Request ℚ := fun t =>
      if t = 2 then .range ['A'] 0 9 else .append (if t = 0 then ['A'] else ['B'])
        (flatCandle t 1)
    let go (t : Fin 3) (n : Nat) : List (Turn (Fin 3) Choice) :=
      List.replicate n ⟨t, ⟨['A'], .ok⟩⟩
    let step := turn (next cfg (fun _ => stableOrder) req)
    ∃ w₀ w result, exec step start (go 0 5) = some w₀ ∧
      exec step w₀ (go 2 1 ++ go 1 5 ++ go 2 1 ++ go 1 3 ++ go 2 1) = some w ∧
      w.mem.map.lookup ['A'] = none ∧ w.pc 2 = .ranged result ∧
      flatCandle 0 1 ∈ result := by
  intro cfg req go step
  obtain ⟨w₀, hbefore, hw₀⟩ := exists_exec step start (go 0 5)
    (fun w => (w.pc 2).isIdle && (w.pc 0).isAccepted) (by decide +kernel)
  obtain ⟨v, hrun, hv⟩ := exists_exec step start
    (go 0 5 ++ (go 2 1 ++ go 1 5 ++ go 2 1 ++ go 1 3 ++ go 2 1))
    (fun w => (w.pc 2).isRanged && decide (w.mem.map.lookup ['A'] = none ∧
      StrictBy Candle.ts (pushesUnder ['A'] w.mem.hist) ∧
      lostUnder ['A'] w.mem.hist = []))
    (by decide +kernel)
  obtain ⟨w₁, hbefore', hduring⟩ := exec_append_eq_some.1 hrun
  cases Option.some.inj (hbefore.symm.trans hbefore')
  rw [Bool.and_eq_true] at hw₀ hv
  obtain ⟨hbegin, haccept⟩ := hw₀
  obtain ⟨hend, hw⟩ := hv
  obtain ⟨hgone, hstrict, hwrap⟩ := of_decide_eq_true hw
  obtain ⟨result, hdone⟩ := Pc.exists_ranged hend
  have hthree : ∀ u : Fin 3, u = 0 ∨ u = 1 ∨ u = 2 := by decide
  have hown : OwnDirectory cfg req ['A'] := by
    intro u symbol candle hu hsame
    rcases hthree u with rfl | rfl | rfl
    · cases hu
      rfl
    · cases hu
      exact absurd hsame (by decide +kernel)
    · cases hu
  refine ⟨w₀, v, result, hbefore, hduring, hgone, hdone, ?_⟩
  exact (range_returns_settled (t := 2) (w := v) (rfl : cfg.dataDir = true)
    (rfl : req 2 = .range ['A'] 0 9) hbefore (Pc.eq_idle hbegin) hduring hdone
    hstrict hwrap hown).1 0 (flatCandle 0 1) rfl (Pc.eq_accepted haccept)
    (by decide +kernel) (by decide +kernel)

end Runs

end Candlestore.Concurrent
