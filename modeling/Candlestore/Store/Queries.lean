import Candlestore.Store.History

/-!
# What a range query returns

A query merges the window of the hot ring with the window of the cold
directory.  Through `HistoryInv` both halves are read off the ledger of the
run: the ring holds the end of the current period, the directory the ends of
the closed ones.  Three results follow.  With distinct directories and
increasing timestamps a query returns the whole retained history; data of
another symbol shows up exactly when two symbols share a directory; and a
candle corrected under the same timestamp is certain to be returned only while
the correction is still hot.
-/

namespace Candlestore

open Lib

variable {F : Type}

/-- The candles in the hot ring of a symbol. -/
def hotRows (s : Store F) (symbol : Symbol) : List (Candle F) :=
  match s.map.lookup symbol with
  | some entry => entry.buf.toVec
  | none => []

/-- The candles accepted since the symbol was last inserted. -/
def currentPeriod (s : Store F) (h : Ledger F) (symbol : Symbol) : List (Candle F) :=
  if s.isResident symbol then (h symbol).getLastD [] else []

/-- The last candle of a list with the given timestamp. -/
def latestAt (l : List (Candle F)) (ts : Int) : Option (Candle F) :=
  (l.filter fun c => c.ts = ts).getLast?

theorem latestAt_append (a b : List (Candle F)) (ts : Int) :
    latestAt (a ++ b) ts = (latestAt b ts).or (latestAt a ts) := by
  rw [latestAt, List.filter_append, List.getLast?_append]
  rfl

theorem latestAt_eq_some {l : List (Candle F)} {ts : Int} {c : Candle F}
    (h : latestAt l ts = some c) : c ∈ l ∧ c.ts = ts := by
  have hmem := List.mem_filter.1 (List.mem_of_getLast? h)
  exact ⟨hmem.1, by simpa using hmem.2⟩

theorem latestAt_eq_none {l : List (Candle F)} {ts : Int} :
    latestAt l ts = none ↔ ∀ c ∈ l, c.ts ≠ ts := by
  rw [latestAt, List.getLast?_eq_none_iff, List.filter_eq_nil_iff]
  simp only [decide_eq_true_eq, ne_eq]

/-! ## The two halves of a query -/

section Halves

variable {cfg : Config} {s : Store F} {h : Ledger F}

theorem HistoryInv.flatten_eq (inv : HistoryInv cfg s h) (k : Symbol) :
    (h k).flatten = (closedPeriods s h k).flatten ++ currentPeriod s h k := by
  cases hk : s.map.lookup k with
  | none =>
      rw [closedPeriods_absent s h k hk, currentPeriod, Store.isResident, hk]
      exact (List.append_nil _).symm
  | some e =>
      obtain ⟨closed, cur, hh, _⟩ := inv.ring k e hk
      rw [closedPeriods_resident s h k e hk, currentPeriod, Store.isResident, hk, hh]
      simp

theorem HistoryInv.hotRows_eq (inv : HistoryInv cfg s h) (k : Symbol) :
    hotRows s k = (currentPeriod s h k).rtake cfg.ringCapacity := by
  cases hk : s.map.lookup k with
  | none =>
      rw [hotRows, currentPeriod, Store.isResident, hk]
      exact (List.rtake_nil _).symm
  | some e =>
      obtain ⟨closed, cur, hh, _, hvec⟩ := inv.ring k e hk
      rw [hotRows, currentPeriod, Store.isResident, hk, hh]
      simp [hvec]

/-- What a symbol retains is split between the directory and the ring. -/
theorem HistoryInv.retained_eq (inv : HistoryInv cfg s h) (k : Symbol) :
    retained cfg h k = spilledRows cfg s h k ++ hotRows s k := by
  cases hk : s.map.lookup k with
  | none =>
      rw [retained, spilledRows, closedPeriods_absent s h k hk, hotRows, hk,
        List.append_nil]
  | some e =>
      obtain ⟨closed, cur, hh, _, hvec⟩ := inv.ring k e hk
      rw [retained, spilledRows, closedPeriods_resident s h k e hk, hotRows, hk, hh]
      simp [hvec]

/-- With distinct directories a symbol's directory holds its own rows only. -/
theorem HistoryInv.mem_stored_iff (inv : HistoryInv cfg s h) (hdir : cfg.dataDir = true)
    {syms : Set Symbol} (hinj : Set.InjOn (escapeSymbol cfg.uni) syms)
    (hused : ∀ k, h k ≠ [] → k ∈ syms) {symbol : Symbol} (hsym : symbol ∈ syms)
    (c : Candle F) :
    c ∈ stored s.files (escapeSymbol cfg.uni symbol) ↔
      c ∈ spilledRows cfg s h symbol := by
  rw [inv.cold hdir]
  constructor
  · rintro ⟨k, hk, hc⟩
    have hne : h k ≠ [] := by
      intro hnil
      rw [spilledRows, closedPeriods, hnil] at hc
      simp at hc
    exact hinj (hused k hne) hsym hk ▸ hc
  · exact fun hc => ⟨symbol, rfl, hc⟩

/-- What a symbol retained was accepted under it. -/
theorem mem_flatten_of_mem_retained {k : Symbol} {c : Candle F}
    (hc : c ∈ retained cfg h k) : c ∈ (h k).flatten := by
  obtain ⟨l, hl, hcl⟩ := List.mem_flatten.1 hc
  obtain ⟨p, hp, rfl⟩ := List.mem_map.1 hl
  exact List.mem_flatten.2 ⟨p, hp, List.mem_of_mem_drop hcl⟩

theorem retained_sublist (k : Symbol) : (retained cfg h k).Sublist (h k).flatten := by
  rw [retained]
  induction h k with
  | nil => exact List.Sublist.refl _
  | cons p ps ih =>
      rw [List.map_cons, List.flatten_cons, List.flatten_cons]
      exact (List.drop_sublist _ p).append ih

variable [F64 F] (o : OsOrder F) (symbol : Symbol) (fromTs toTs : Int)

/-- The hot half of a query. -/
def hotRange (s : Store F) (symbol : Symbol) (fromTs toTs : Int) : List (Candle F) :=
  match s.map.lookup symbol with
  | some entry => entry.buf.range fromTs toTs
  | none => []

theorem range_eq_mergeBy (hdir : cfg.dataDir = true) :
    s.range cfg o symbol fromTs toTs =
      mergeBy Candle.ts (queryCold cfg.uni o s.files symbol fromTs toTs)
        (hotRange s symbol fromTs toTs) := by
  rw [Store.range, if_pos hdir, joinHotCold_eq]
  rfl

theorem mem_hotRows_of_mem_hotRange {c : Candle F}
    (hc : c ∈ hotRange s symbol fromTs toTs) : c ∈ hotRows s symbol := by
  rw [hotRange] at hc
  rw [hotRows]
  cases hk : s.map.lookup symbol with
  | none =>
      rw [hk] at hc
      exact absurd hc List.not_mem_nil
  | some e =>
      rw [hk] at hc
      exact e.buf.mem_toVec_of_mem_range fromTs toTs c hc

/-- Binary search finds the whole window of a ring in timestamp order. -/
theorem hotRange_eq_filter (hsorted : SortedBy Candle.ts (hotRows s symbol)) :
    hotRange s symbol fromTs toTs = (hotRows s symbol).filter
      (inWindow fromTs toTs) := by
  rw [hotRows] at hsorted
  rw [hotRange, hotRows]
  cases hk : s.map.lookup symbol with
  | none => rfl
  | some e =>
      rw [hk] at hsorted
      simp only
      rw [e.buf.range_eq_filter fromTs toTs hsorted]
      apply List.filter_congr
      intro c _
      simp [inWindow]

/-- Whatever a query returns is in the ring or in the directory. -/
theorem mem_of_mem_range (hdir : cfg.dataDir = true) {c : Candle F}
    (hc : c ∈ s.range cfg o symbol fromTs toTs) :
    c ∈ hotRows s symbol ∨ c ∈ stored s.files (escapeSymbol cfg.uni symbol) := by
  rw [range_eq_mergeBy o symbol fromTs toTs hdir] at hc
  rcases mem_or_mem_of_mem_mergeBy Candle.ts _ _ c hc with hcold | hhot
  · exact Or.inr (mem_of_mem_queryCold cfg.uni o s.files symbol fromTs toTs c hcold).1
  · exact Or.inl (mem_hotRows_of_mem_hotRange symbol fromTs toTs hhot)

/-- No stored timestamp of the window is missed by a query. -/
theorem exists_ts_range (hdir : cfg.dataDir = true) (hadv : ∀ f ∈ s.files, Advertised f)
    {c : Candle F} (hc : c ∈ stored s.files (escapeSymbol cfg.uni symbol))
    (hfrom : fromTs ≤ c.ts) (hto : c.ts ≤ toTs) :
    ∃ y ∈ s.range cfg o symbol fromTs toTs, y.ts = c.ts := by
  rw [range_eq_mergeBy o symbol fromTs toTs hdir]
  obtain ⟨z, hz, hzc⟩ :=
    exists_ts_queryCold cfg.uni o s.files symbol fromTs toTs hadv c hc hfrom hto
  rcases mem_mergeBy_left Candle.ts _ (hotRange s symbol fromTs toTs) z hz with
    hmem | ⟨y, hy, hyz⟩
  · exact ⟨z, hmem, hzc⟩
  · exact ⟨y, (sublist_mergeBy Candle.ts _ _).subset hy, hyz.trans hzc⟩

end Halves

/-! ## Replaying concrete runs -/

section Replay

variable [F64 F]

/-- One call of a run, with the outcome of the spill it may cause. -/
structure Call (F : Type) where
  symbol : Symbol
  candle : Candle F
  io : SpillIo

/-- Run the calls one after the other, keeping the ledger. -/
def replay (cfg : Config) (s : Store F) (h : Ledger F) :
    List (Call F) → Option (Store F × Ledger F)
  | [] => some (s, h)
  | call :: calls => do
      let (s', result) ← s.tryAppend cfg call.symbol call.candle call.io
      match result with
      | .ok () =>
          replay cfg s' (h.record call.symbol call.candle (s.isResident call.symbol))
            calls
      | .error _ => replay cfg s' h calls

theorem Run.replay {cfg : Config} {s s' : Store F} {h h' : Ledger F}
    (calls : List (Call F)) (hrun : Run cfg s h)
    (hreplay : Candlestore.replay cfg s h calls = some (s', h')) : Run cfg s' h' := by
  induction calls generalizing s h with
  | nil =>
      rw [Candlestore.replay, Option.some.injEq, Prod.mk.injEq] at hreplay
      obtain ⟨rfl, rfl⟩ := hreplay
      exact hrun
  | cons call calls ih =>
      rw [Candlestore.replay, Option.bind_eq_bind, Option.bind_eq_some_iff] at hreplay
      obtain ⟨⟨s₁, result⟩, hcall, hrest⟩ := hreplay
      cases result with
      | ok u => exact ih (hrun.accepted _ _ _ hcall) hrest
      | error err => exact ih (hrun.rejected _ _ _ err hcall) hrest

/-- Only symbols that were called have a ledger line. -/
theorem replay_used {cfg : Config} {s s' : Store F} {h h' : Ledger F}
    (calls : List (Call F)) (hreplay : replay cfg s h calls = some (s', h'))
    (k : Symbol) (hk : h' k ≠ []) : h k ≠ [] ∨ k ∈ calls.map Call.symbol := by
  induction calls generalizing s h with
  | nil =>
      rw [replay, Option.some.injEq, Prod.mk.injEq] at hreplay
      exact Or.inl (hreplay.2 ▸ hk)
  | cons call calls ih =>
      rw [replay, Option.bind_eq_bind, Option.bind_eq_some_iff] at hreplay
      obtain ⟨⟨s₁, result⟩, hcall, hrest⟩ := hreplay
      rw [List.map_cons, List.mem_cons]
      cases result with
      | ok u =>
          by_cases heq : k = call.symbol
          · exact Or.inr (Or.inl heq)
          · rcases ih hrest with hold | hmem
            · rw [Ledger.record, Function.update_of_ne heq] at hold
              exact Or.inl hold
            · exact Or.inr (Or.inr hmem)
      | error err =>
          rcases ih hrest with hold | hmem
          · exact Or.inl hold
          · exact Or.inr (Or.inr hmem)

/-- A replay that returns is a run of its calls, with any property its end has. -/
theorem exists_run_of_replay (cfg : Config) (calls : List (Call F))
    (p : Store F × Ledger F → Bool)
    (hp : (replay cfg Store.new (fun _ => []) calls).any p = true) :
    ∃ s h, Run cfg s h ∧ (∀ k, h k ≠ [] → k ∈ calls.map Call.symbol) ∧
      p (s, h) = true := by
  obtain ⟨⟨s, h⟩, hreplay, hsh⟩ := (Option.any_eq_true _ _).1 hp
  refine ⟨s, h, Run.start.replay calls hreplay, ?_, hsh⟩
  intro k hk
  exact (replay_used calls hreplay k hk).resolve_left fun hnil => hnil rfl

end Replay

/-! ## Full history -/

section FullHistory

variable [F64 F] {cfg : Config} {s : Store F} {h : Ledger F}

/-- With distinct directories and increasing timestamps a query returns the window of
what the ledger retains, in timestamp order. -/
theorem HistoryInv.range_eq (inv : HistoryInv cfg s h) (hdir : cfg.dataDir = true)
    {syms : Set Symbol} (hinj : Set.InjOn (escapeSymbol cfg.uni) syms)
    (hused : ∀ k, h k ≠ [] → k ∈ syms) {symbol : Symbol} (hsym : symbol ∈ syms)
    (hts : StrictBy Candle.ts (h symbol).flatten) (o : OsOrder F) (fromTs toTs : Int) :
    s.range cfg o symbol fromTs toTs = (retained cfg h symbol).filter
      (inWindow fromTs toTs) ∧
      StrictBy Candle.ts (s.range cfg o symbol fromTs toTs) := by
  have hret : StrictBy Candle.ts (retained cfg h symbol) :=
    hts.sublist (retained_sublist symbol)
  have hsplit := inv.retained_eq symbol
  have hstored := inv.mem_stored_iff hdir hinj hused hsym
  have hhot : StrictBy Candle.ts (hotRows s symbol) := by
    rw [hsplit] at hret
    exact (List.pairwise_append.1 hret).2.1
  have hrange := range_eq_mergeBy (s := s) o symbol fromTs toTs hdir
  rw [hotRange_eq_filter symbol fromTs toTs (hhot.sortedBy Candle.ts)] at hrange
  have hstrict : StrictBy Candle.ts (s.range cfg o symbol fromTs toTs) := by
    rw [hrange]
    exact mergeBy_strict Candle.ts _ _ (queryCold_strict _ _ _ _ _ _)
      (hhot.filter Candle.ts _)
  have hfound : ∀ {x}, x ∈ s.range cfg o symbol fromTs toTs →
      x ∈ retained cfg h symbol ∧ fromTs ≤ x.ts ∧ x.ts ≤ toTs := by
    intro x hx
    rw [hsplit, List.mem_append]
    rw [hrange] at hx
    rcases mem_or_mem_of_mem_mergeBy Candle.ts _ _ x hx with hcold | hring
    · obtain ⟨hx, hwindow⟩ :=
        mem_of_mem_queryCold cfg.uni o s.files symbol fromTs toTs x hcold
      exact ⟨Or.inl ((hstored x).1 hx), hwindow⟩
    · rw [List.mem_filter, inWindow_iff] at hring
      exact ⟨Or.inr hring.1, hring.2⟩
  refine ⟨StrictBy.ext Candle.ts hstrict (hret.filter Candle.ts _) fun c => ?_, hstrict⟩
  rw [List.mem_filter, inWindow_iff]
  constructor
  · exact hfound
  · rintro ⟨hc, hfrom, hto⟩
    -- The timestamp is found, and the ledger has one candle of a timestamp.
    have hsame : ∃ y ∈ s.range cfg o symbol fromTs toTs, y.ts = c.ts := by
      rw [hsplit, List.mem_append] at hc
      rcases hc with hc | hc
      · exact exists_ts_range o symbol fromTs toTs hdir inv.advertised
          ((hstored c).2 hc) hfrom hto
      · refine ⟨c, ?_, rfl⟩
        rw [hrange]
        exact (sublist_mergeBy Candle.ts _ _).subset
          (List.mem_filter.2 ⟨hc, (inWindow_iff fromTs toTs c).2 ⟨hfrom, hto⟩⟩)
    obtain ⟨y, hy, hyc⟩ := hsame
    exact hret.eq_of_key_eq Candle.ts (hfound hy).1 hc hyc ▸ hy

/-- With distinct directories and increasing timestamps a query returns the
window of everything the symbol retained, in timestamp order. -/
theorem range_eq_retained (hdir : cfg.dataDir = true) (hrun : Run cfg s h)
    (syms : Set Symbol) (hinj : Set.InjOn (escapeSymbol cfg.uni) syms)
    (hused : ∀ k, h k ≠ [] → k ∈ syms)
    (hts : ∀ k ∈ syms, StrictBy Candle.ts (h k).flatten) (o : OsOrder F)
    (symbol : Symbol) (hsym : symbol ∈ syms) (fromTs toTs : Int) :
    s.range cfg o symbol fromTs toTs = (retained cfg h symbol).filter
      (inWindow fromTs toTs) ∧
      StrictBy Candle.ts (s.range cfg o symbol fromTs toTs) :=
  hrun.historyInv.range_eq hdir hinj hused hsym (hts symbol hsym) o fromTs toTs

/-- A run over two symbols and a single hot slot, so that the first symbol has
two residency periods. -/
theorem range_eq_retained_two_periods :
    let cfg : Config := ⟨1, 2, true, fun _ => false⟩
    ∃ (s : Store ℚ) (h : Ledger ℚ), Run cfg s h ∧ (h ['A']).length = 2 ∧
      s.range cfg stableOrder ['A'] 0 9 = (retained cfg h ['A']).filter (inWindow 0 9) ∧
      StrictBy Candle.ts (s.range cfg stableOrder ['A'] 0 9) := by
  intro cfg
  obtain ⟨s, h, hrun, hused, hp⟩ := exists_run_of_replay cfg
    [⟨['A'], flatCandle 0 1, .ok⟩, ⟨['B'], flatCandle 5 1, .ok⟩,
      ⟨['A'], flatCandle 3 1, .ok⟩] (fun r =>
        decide ((r.2 ['A']).length = 2 ∧ StrictBy Candle.ts (r.2 ['A']).flatten ∧
      StrictBy Candle.ts (r.2 ['B']).flatten)) (by decide +kernel)
  obtain ⟨hlen, hA, hB⟩ := of_decide_eq_true hp
  refine ⟨s, h, hrun, hlen, ?_⟩
  refine range_eq_retained rfl hrun {['A'], ['B']} ?_ ?_ ?_ _ _ (Or.inl rfl) _ _
  · rintro a (rfl | rfl) b (rfl | rfl) <;> decide
  · intro k hk
    have hmem : k = ['A'] ∨ k = ['B'] ∨ k = ['A'] := by simpa using hused k hk
    exact hmem.elim Or.inl fun hk => hk.symm
  · rintro k (rfl | rfl)
    · exact hA
    · exact hB

end FullHistory

/-! ## Isolation of symbols -/

section Isolation

variable [F64 F]

/-- Runs over the symbols in `syms` never show a symbol the data of another. -/
def SymbolsIsolated (F : Type) [F64 F] (uni : Char → Bool) (syms : Set Symbol) : Prop :=
  ∀ (cfg : Config) (s : Store F) (h : Ledger F), cfg.uni = uni → cfg.dataDir = true →
    Run cfg s h → (∀ k, h k ≠ [] → k ∈ syms) →
    ∀ (o : OsOrder F) (symbol : Symbol) (fromTs toTs : Int), symbol ∈ syms →
      ∀ c ∈ s.range cfg o symbol fromTs toTs, c ∈ (h symbol).flatten

theorem symbolsIsolated_of_injOn (uni : Char → Bool) (syms : Set Symbol)
    (hinj : Set.InjOn (escapeSymbol uni) syms) : SymbolsIsolated F uni syms := by
  rintro cfg s h rfl hdir hrun hused o symbol fromTs toTs hsym c hc
  have inv := hrun.historyInv
  refine mem_flatten_of_mem_retained (?_ : c ∈ retained cfg h symbol)
  rw [inv.retained_eq, List.mem_append]
  rcases mem_of_mem_range o symbol fromTs toTs hdir hc with hhot | hcold
  · exact Or.inr hhot
  · exact Or.inl ((inv.mem_stored_iff hdir hinj hused hsym c).1 hcold)

/-- One hot slot with rings of one candle. -/
def tinyConfig (uni : Char → Bool) : Config := ⟨1, 1, true, uni⟩

/-- A full store whose victim's spill succeeds accepts a new symbol. -/
theorem tryAppend_evicts (cfg : Config) (s : Store F) {key symbol : Symbol} {e : Entry F}
    {c : Candle F} {io : SpillIo} {fs : List (ColdFile F)} (hdir : cfg.dataDir = true)
    (hcap : 0 < cfg.ringCapacity) (hvalid : c.isValid = true)
    (hnone : s.map.lookup symbol = none) (hfull : cfg.maxSymbols ≤ s.map.keys.length)
    (hkey : evictKey s.map = some key) (hget : s.map.lookup key = some e)
    (hne : e.buf.toVec ≠ [])
    (hspill : spill cfg.uni s.files key e.buf.toVec io = some (fs, .ok ())) :
    ∃ s', s.tryAppend cfg symbol c io = some (s', .ok ()) ∧
      ∀ k, k ≠ symbol → s'.map.lookup k = if k = key then none else s.map.lookup k := by
  have hempty : e.buf.toVec.isEmpty = false := by simpa using hne
  simp only [Store.tryAppend, hvalid, hnone, Store.tryInsertNew, dif_pos hcap,
    if_pos hfull, hkey, Store.evict, hget, hempty, hdir, hspill, Bool.not_true,
    Bool.or_false, Bool.false_eq_true, if_false, Option.bind_eq_bind, Option.bind_some,
    Option.pure_def, Option.some.injEq, Prod.mk.injEq, and_true, exists_eq_left']
  intro k hk
  rw [Store.insertNew, lookup_insert_if, if_neg hk]
  by_cases heq : k = key
  · rw [if_pos heq, heq, AList.lookup_erase]
  · rw [if_neg heq, AList.lookup_erase_ne heq, AList.lookup_insert_ne heq]

/-- Appending two symbols to a store with one slot spills the first. -/
theorem run_two_symbols (uni : Char → Bool) {a b : Symbol} (hab : a ≠ b) {x y : Candle F}
    (hx : x.isValid = true) (hy : y.isValid = true) :
    ∃ s : Store F, Run (tinyConfig uni) s
        ((Ledger.record (fun _ => []) a x false).record b y false) ∧
      s.map.lookup a = none := by
  have hcap : 0 < (tinyConfig uni).ringCapacity := Nat.one_pos
  let e : Entry F := ⟨firstRing (tinyConfig uni) hcap x, 0, false⟩
  let s : Store F :=
    { (Store.new : Store F) with map := AList.insert a e ∅, version := 1, tick := 1 }
  have hfirst : (Store.new : Store F).tryAppend (tinyConfig uni) a x .ok =
      some (s, .ok ()) := by
    simp [Store.tryAppend, hx, Store.new, Store.tryInsertNew, Store.insertNew, s, e,
      tinyConfig, firstRing]
  have hnone : s.map.lookup b = none := by
    rw [AList.lookup_insert_ne (Ne.symm hab)]
    rfl
  have hvec : e.buf.toVec = [x] := RingBuffer.toVec_new_push _ _ x
  have hspill : ∃ fs, spill uni s.files a e.buf.toVec .ok = some (fs, .ok ()) := by
    rw [hvec]
    simp [s, Store.new, spill, freeName, freeNameLoop, pathExists]
  obtain ⟨fs, hfs⟩ := hspill
  obtain ⟨s', hcall, hmap⟩ :=
    tryAppend_evicts (tinyConfig uni) s rfl hcap hy hnone (le_refl 1)
    (rfl : evictKey s.map = some a) (AList.lookup_insert _) (by rw [hvec]; simp) hfs
  refine ⟨s', ?_, by rw [hmap a hab, if_pos rfl]⟩
  have hrun := (Run.start.accepted a x .ok hfirst).accepted b y .ok hcall
  have hres : s.isResident b = false := by rw [Store.isResident, hnone]; rfl
  rwa [hres] at hrun

/-- Queries of a symbol are free of other symbols' candles, whatever is
appended, exactly when no two symbols share a directory. -/
theorem symbolsIsolated_iff_injOn (uni : Char → Bool) (syms : Set Symbol) (v : F)
    (hv : F64.isFinite v = true) :
    SymbolsIsolated F uni syms ↔ Set.InjOn (escapeSymbol uni) syms := by
  refine ⟨fun hiso => ?_, symbolsIsolated_of_injOn uni syms⟩
  intro a ha b hb hesc
  by_contra hab
  -- the candle of `a` is spilled at time 0 and looked up under
  -- `b`, which only has time 1
  let x : Candle F := ⟨0, v, v, v, v, v⟩
  let y : Candle F := ⟨1, v, v, v, v, v⟩
  have hx : x.isValid = true := by simp [Candle.isValid, x, hv]
  have hy : y.isValid = true := by simp [Candle.isValid, y, hv]
  obtain ⟨s, hrun, hgone⟩ := run_two_symbols uni hab hx hy
  have inv := hrun.historyInv
  have hstored : x ∈ stored s.files (escapeSymbol uni b) := by
    rw [← hesc]
    refine (inv.cold rfl _ x).2 ⟨a, rfl, ?_⟩
    rw [spilledRows, closedPeriods_absent s _ a hgone, Ledger.record,
      Function.update_of_ne hab, Ledger.record, Function.update_self]
    simp [List.rtake, tinyConfig]
  have hdir : (tinyConfig uni).dataDir = true := rfl
  obtain ⟨z, hz, hzts⟩ := exists_ts_range stableOrder b 0 0 hdir inv.advertised hstored
    (le_refl 0) (le_refl 0)
  have hused : ∀ k, (Ledger.record (fun _ => []) a x false).record b y false k ≠ [] →
      k ∈ syms := by
    intro k hk
    by_cases hkb : k = b
    · exact hkb ▸ hb
    · by_cases hka : k = a
      · exact hka ▸ ha
      · rw [Ledger.record, Function.update_of_ne hkb, Ledger.record,
          Function.update_of_ne hka] at hk
        exact absurd rfl hk
  have hmem := hiso (tinyConfig uni) s _ rfl hdir hrun hused stableOrder b 0 0 hb z hz
  have hzy : z = y := by
    rw [Ledger.record, Function.update_self, Ledger.record,
      Function.update_of_ne (Ne.symm hab)] at hmem
    simpa using hmem
  rw [hzy] at hzts
  have hne : y.ts ≠ x.ts := Int.one_ne_zero
  exact hne hzts

theorem symbolsIsolated_iff_injOn_pair :
    SymbolsIsolated ℚ (fun _ => false) {['A'], ['B']} ↔
      Set.InjOn (escapeSymbol fun _ => false) {['A'], ['B']} :=
  symbolsIsolated_iff_injOn (fun _ => false) {['A'], ['B']} (0 : ℚ) rfl

/-- After `A/B` is evicted its candle at time 0 shows up in the history of
`A:B`, which never had a candle at that time. -/
theorem range_leaks_colliding_symbol :
    ∃ (s : Store ℚ) (h : Ledger ℚ), Run (tinyConfig fun _ => false) s h ∧
      flatCandle 0 7 ∈ s.range (tinyConfig fun _ => false) stableOrder
        ['A', ':', 'B'] 0 9 ∧
      (h ['A', ':', 'B']).flatten = [flatCandle 1 2] := by
  obtain ⟨s, h, hrun, _, hp⟩ := exists_run_of_replay (tinyConfig fun _ => false)
    [⟨['A', '/', 'B'], flatCandle 0 7, .ok⟩, ⟨['A', ':', 'B'], flatCandle 1 2, .ok⟩]
    (fun r => decide (flatCandle 0 7 ∈
        r.1.range (tinyConfig fun _ => false) stableOrder ['A', ':', 'B'] 0 9 ∧
      (r.2 ['A', ':', 'B']).flatten = [flatCandle 1 2])) (by decide +kernel)
  exact ⟨s, h, hrun, of_decide_eq_true hp⟩

end Isolation

/-! ## Corrections under the same timestamp -/

section Corrections

variable {cfg : Config} {s : Store F} {h : Ledger F}

/-- Without ring wrap the closed periods are in the directory as a whole. -/
theorem spilledRows_eq_flatten {k : Symbol}
    (hwrap : ∀ p ∈ h k, p.length ≤ cfg.ringCapacity) :
    spilledRows cfg s h k = (closedPeriods s h k).flatten := by
  have hsub : ∀ p ∈ closedPeriods s h k, p ∈ h k := by
    intro p hp
    rw [closedPeriods] at hp
    split at hp
    · exact List.dropLast_subset _ hp
    · exact hp
  rw [spilledRows,
    List.map_congr_left fun p hp => rtake_of_length_le (hwrap p (hsub p hp)),
    List.map_id']

/-- The current period is one of the periods of the symbol. -/
theorem HistoryInv.currentPeriod_mem (inv : HistoryInv cfg s h) {k : Symbol} :
    currentPeriod s h k = [] ∨ currentPeriod s h k ∈ h k := by
  cases hk : s.map.lookup k with
  | none =>
      rw [currentPeriod, Store.isResident, hk]
      exact Or.inl rfl
  | some e =>
      obtain ⟨closed, cur, hh, _⟩ := inv.ring k e hk
      rw [currentPeriod, Store.isResident, hk, hh]
      exact Or.inr (by simp)

variable [F64 F]

/-- Without ring wrap the hot half of a query is the window of the current period. -/
theorem HistoryInv.range_eq_mergeBy_current (inv : HistoryInv cfg s h)
    (hdir : cfg.dataDir = true) {symbol : Symbol}
    (hwrap : ∀ p ∈ h symbol, p.length ≤ cfg.ringCapacity)
    (hsorted : ∀ p ∈ h symbol, SortedBy Candle.ts p) (o : OsOrder F)
    (fromTs toTs : Int) :
    s.range cfg o symbol fromTs toTs =
      mergeBy Candle.ts (queryCold cfg.uni o s.files symbol fromTs toTs)
        ((currentPeriod s h symbol).filter (inWindow fromTs toTs)) := by
  have hhot : hotRows s symbol = currentPeriod s h symbol ∧
      SortedBy Candle.ts (currentPeriod s h symbol) := by
    rw [inv.hotRows_eq]
    rcases inv.currentPeriod_mem (k := symbol) with hnil | hmem
    · rw [hnil, List.rtake_nil]
      exact ⟨rfl, List.Pairwise.nil⟩
    · exact ⟨rtake_of_length_le (hwrap _ hmem), hsorted _ hmem⟩
  rw [range_eq_mergeBy o symbol fromTs toTs hdir, hotRange_eq_filter symbol fromTs toTs,
    hhot.1]
  rw [hhot.1]
  exact hhot.2

/-- The latest candle of the current period at a timestamp is returned. -/
theorem HistoryInv.latest_mem_range (inv : HistoryInv cfg s h)
    (hdir : cfg.dataDir = true) {symbol : Symbol}
    (hwrap : ∀ p ∈ h symbol, p.length ≤ cfg.ringCapacity)
    (hsorted : ∀ p ∈ h symbol, SortedBy Candle.ts p) (o : OsOrder F)
    {fromTs toTs ts : Int} (hfrom : fromTs ≤ ts) (hto : ts ≤ toTs) {c : Candle F}
    (hlast : latestAt (h symbol).flatten ts = some c)
    (hcur : ∃ x ∈ currentPeriod s h symbol, x.ts = ts) :
    c ∈ s.range cfg o symbol fromTs toTs := by
  obtain ⟨x, hx, hxts⟩ := hcur
  rw [inv.flatten_eq, latestAt_append] at hlast
  have hnewest : latestAt (currentPeriod s h symbol) ts = some c := by
    cases hcase : latestAt (currentPeriod s h symbol) ts with
    | none => exact absurd hxts (latestAt_eq_none.1 hcase x hx)
    | some w => rwa [hcase, Option.some_or] at hlast
  obtain ⟨hmem, hcts⟩ := latestAt_eq_some hnewest
  rw [inv.range_eq_mergeBy_current hdir hwrap hsorted]
  refine (sublist_mergeBy Candle.ts _ _).subset (List.mem_filter.2 ⟨hmem, ?_⟩)
  rw [inWindow_iff, hcts]
  exact ⟨hfrom, hto⟩

/-- A timestamp that the current period does not have is answered by one spilled candle.
-/
theorem HistoryInv.one_of_range (inv : HistoryInv cfg s h) (hdir : cfg.dataDir = true)
    {syms : Set Symbol} (hinj : Set.InjOn (escapeSymbol cfg.uni) syms)
    (hused : ∀ k, h k ≠ [] → k ∈ syms) {symbol : Symbol} (hsym : symbol ∈ syms)
    (hwrap : ∀ p ∈ h symbol, p.length ≤ cfg.ringCapacity)
    (hsorted : ∀ p ∈ h symbol, SortedBy Candle.ts p) (o : OsOrder F)
    {fromTs toTs ts : Int} (hfrom : fromTs ≤ ts) (hto : ts ≤ toTs) {c : Candle F}
    (hlast : latestAt (h symbol).flatten ts = some c)
    (hno : ∀ x ∈ currentPeriod s h symbol, x.ts ≠ ts) :
    ∃ y ∈ (h symbol).flatten,
      (s.range cfg o symbol fromTs toTs).filter (fun x => x.ts = ts) = [y] := by
  have hflat := inv.flatten_eq symbol
  have hstored := inv.mem_stored_iff hdir hinj hused hsym
  have hrows := spilledRows_eq_flatten (s := s) hwrap
  obtain ⟨hcmem, hcts⟩ := latestAt_eq_some hlast
  rw [hflat, List.mem_append] at hcmem
  have hcold : c ∈ (closedPeriods s h symbol).flatten :=
    hcmem.resolve_right fun hcur => hno c hcur hcts
  rw [← hrows, ← hstored] at hcold
  obtain ⟨y, hy, hyts⟩ := exists_ts_queryCold cfg.uni o s.files symbol fromTs toTs
    inv.advertised c hcold (hcts ▸ hfrom) (hcts ▸ hto)
  refine ⟨y, ?_, ?_⟩
  · have hmem := (mem_of_mem_queryCold cfg.uni o s.files symbol fromTs toTs y hy).1
    rw [hstored, hrows] at hmem
    rw [hflat]
    exact List.mem_append_left _ hmem
  · rw [inv.range_eq_mergeBy_current hdir hwrap hsorted,
      filter_key_mergeBy Candle.ts _ _ ts
        (fun x hx => hno x (List.mem_filter.1 hx).1), ← hcts, ← hyts]
    exact (queryCold_strict cfg.uni o s.files symbol fromTs toTs).filter_key_eq
      Candle.ts hy

/-- The most recently accepted candle at a timestamp is returned while its
residency lasts.  Afterwards exactly one of the candles accepted at that
timestamp is returned, so the latest is certain only if they are all equal. -/
theorem range_latest_or_one (hdir : cfg.dataDir = true) (hrun : Run cfg s h)
    (syms : Set Symbol) (hinj : Set.InjOn (escapeSymbol cfg.uni) syms)
    (hused : ∀ k, h k ≠ [] → k ∈ syms) (symbol : Symbol) (hsym : symbol ∈ syms)
    (hwrap : ∀ p ∈ h symbol, p.length ≤ cfg.ringCapacity)
    (hsorted : ∀ p ∈ h symbol, SortedBy Candle.ts p) (o : OsOrder F)
    (fromTs toTs ts : Int) (hfrom : fromTs ≤ ts) (hto : ts ≤ toTs) (c : Candle F)
    (hlast : latestAt (h symbol).flatten ts = some c) :
    ((∃ x ∈ currentPeriod s h symbol, x.ts = ts) →
      c ∈ s.range cfg o symbol fromTs toTs) ∧
      ((∀ x ∈ currentPeriod s h symbol, x.ts ≠ ts) → ∃ y ∈ (h symbol).flatten,
        (s.range cfg o symbol fromTs toTs).filter (fun x => x.ts = ts) = [y]) ∧
      ((∀ x ∈ (h symbol).flatten, x.ts = ts → x = c) →
        c ∈ s.range cfg o symbol fromTs toTs) := by
  have inv := hrun.historyInv
  have hfirst := inv.latest_mem_range hdir hwrap hsorted o hfrom hto hlast
  have hsecond := inv.one_of_range hdir hinj hused hsym hwrap hsorted o hfrom hto hlast
  refine ⟨hfirst, hsecond, ?_⟩
  intro hall
  by_cases hcur : ∃ x ∈ currentPeriod s h symbol, x.ts = ts
  · exact hfirst hcur
  · obtain ⟨y, hy, hone⟩ := hsecond fun x hx hxts => hcur ⟨x, hx, hxts⟩
    have hyin : y ∈ (s.range cfg o symbol fromTs toTs).filter (fun x => x.ts = ts) := by
      rw [hone]
      exact List.mem_singleton_self y
    obtain ⟨hyrange, hyts⟩ := List.mem_filter.1 hyin
    exact hall y hy (by simpa using hyts) ▸ hyrange

/-- A candle at time 0 is corrected while its symbol is resident, and again
after an eviction. -/
theorem range_latest_or_one_hot_again :
    let cfg : Config := ⟨1, 2, true, fun _ => false⟩
    ∃ (s : Store ℚ) (h : Ledger ℚ), Run cfg s h ∧
      latestAt (h ['A']).flatten 0 = some (flatCandle 0 3) ∧
      flatCandle 0 3 ∈ s.range cfg stableOrder ['A'] 0 0 := by
  intro cfg
  obtain ⟨s, h, hrun, hused, hp⟩ := exists_run_of_replay cfg
    [⟨['A'], flatCandle 0 1, .ok⟩, ⟨['A'], flatCandle 0 2, .ok⟩,
      ⟨['B'], flatCandle 5 1, .ok⟩, ⟨['A'], flatCandle 0 3, .ok⟩]
    (fun r => decide (latestAt (r.2 ['A']).flatten 0 = some (flatCandle 0 3) ∧
      (∀ p ∈ r.2 ['A'], p.length ≤ 2) ∧ (∀ p ∈ r.2 ['A'], SortedBy Candle.ts p) ∧
      ∃ x ∈ currentPeriod r.1 r.2 ['A'], x.ts = 0)) (by decide +kernel)
  obtain ⟨hlast, hwrap, hsorted, hcur⟩ := of_decide_eq_true hp
  refine ⟨s, h, hrun, hlast, ?_⟩
  refine (range_latest_or_one rfl hrun {['A'], ['B']} ?_ ?_ ['A']
    (Or.inl rfl) hwrap hsorted stableOrder 0 0 0 (le_refl 0) (le_refl 0) _ hlast).1 hcur
  · rintro a (rfl | rfl) b (rfl | rfl) <;> decide
  · intro k hk
    have hmem : k = ['A'] ∨ k = ['A'] ∨ k = ['B'] ∨
      k = ['A'] := by simpa using hused k hk
    tauto

/-- A correction made within one residency is lost to the value it corrected
once the symbol has been evicted. -/
theorem range_keeps_corrected_value :
    let cfg : Config := ⟨1, 2, true, fun _ => false⟩
    ∃ (s : Store ℚ) (h : Ledger ℚ), Run cfg s h ∧ s.parquetSpillErrors = 0 ∧
      (∀ k, h k ≠ [] → k = ['A'] ∨ k = ['B']) ∧
      h ['A'] = [[flatCandle 0 1, flatCandle 0 2]] ∧ h ['B'] = [[flatCandle 5 1]] ∧
      latestAt (h ['A']).flatten 0 = some (flatCandle 0 2) ∧
      s.range cfg stableOrder ['A'] 0 0 = [flatCandle 0 1] := by
  intro cfg
  obtain ⟨s, h, hrun, hused, hp⟩ := exists_run_of_replay cfg
    [⟨['A'], flatCandle 0 1, .ok⟩, ⟨['A'], flatCandle 0 2, .ok⟩,
      ⟨['B'], flatCandle 5 1, .ok⟩] (fun r => decide (r.1.parquetSpillErrors = 0 ∧
      r.2 ['A'] = [[flatCandle 0 1, flatCandle 0 2]] ∧ r.2 ['B'] = [[flatCandle 5 1]] ∧
      latestAt (r.2 ['A']).flatten 0 = some (flatCandle 0 2) ∧
      r.1.range cfg stableOrder ['A'] 0 0 = [flatCandle 0 1])) (by decide +kernel)
  obtain ⟨herrors, hends⟩ := of_decide_eq_true hp
  refine ⟨s, h, hrun, herrors, ?_, hends⟩
  intro k hk
  have hmem : k = ['A'] ∨ k = ['A'] ∨ k = ['B'] := by simpa using hused k hk
  tauto

end Corrections

end Candlestore
