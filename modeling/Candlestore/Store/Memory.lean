import Candlestore.Lib.Trace
import Candlestore.Store.Concurrent

/-!
# Invariants of the shared memory

Four invariants, each about the part of the memory it reads, and for each the
effect of every operation that touches that part:

* `FlagInv`: an entry is mapped under its symbol and not being evicted exactly
  when its `removed` flag is down;
* `RingInv`: each ring holds what was pushed into it and not overwritten, and
  every candle pushed under a symbol is overwritten, hot or evicted;
* `TraceInv`: between the snapshot of an entry and the abort of that eviction
  nothing is pushed into the entry, and every retry answers to an eviction;
* `ColdInv`: the readable cold rows are the evicted snapshots.
-/

namespace Candlestore.Concurrent

open Lib

variable {τ F : Type}

theorem getElem?_modify_some {α : Type} {l : List α} {f : α → α} {i j : Nat} {y : α}
    (h : (l.modify i f)[j]? = some y) :
    ∃ x, l[j]? = some x ∧ (i = j ∧ y = f x ∨ i ≠ j ∧ y = x) := by
  rw [List.getElem?_modify, Option.map_eq_map, Option.map_eq_some_iff] at h
  obtain ⟨x, hx, rfl⟩ := h
  refine ⟨x, hx, ?_⟩
  by_cases hij : i = j
  · exact Or.inl ⟨hij, if_pos hij⟩
  · exact Or.inr ⟨hij, if_neg hij⟩

theorem getElem?_modify_self {α : Type} {l : List α} {f : α → α} {i : Nat} {x : α}
    (h : l[i]? = some x) : (l.modify i f)[i]? = some (f x) := by
  rw [List.getElem?_modify, h, Option.map_eq_map, Option.map_some, if_pos rfl]

theorem getElem?_snoc_some {α : Type} {l : List α} {x y : α} {j : Nat}
    (h : (l ++ [x])[j]? = some y) : l[j]? = some y ∨ j = l.length ∧ y = x := by
  rcases Nat.lt_or_ge j l.length with hlt | hge
  · exact Or.inl (by rwa [List.getElem?_append_left hlt] at h)
  · rw [List.getElem?_append_right hge, List.getElem?_singleton] at h
    split at h
    · exact Or.inr ⟨by omega, (Option.some.inj h).symm⟩
    · cases h

/-! ## The flag -/

/-- An entry is unflagged exactly if the map leads to it and nobody is evicting it. -/
structure FlagInv (heap : List (Cell F)) (map : AList fun _ : Symbol => EntryId)
    (marked : Option EntryId) : Prop where
  mapped : ∀ symbol e, map.lookup symbol = some e →
    ∃ cell, heap[e]? = some cell ∧ cell.symbol = symbol
  flag : ∀ e cell, heap[e]? = some cell →
    (cell.removed = false ↔ map.lookup cell.symbol = some e ∧ marked ≠ some e)

namespace FlagInv

variable {heap : List (Cell F)} {map : AList fun _ : Symbol => EntryId}
  {marked : Option EntryId}

theorem symbol_eq (h : FlagInv heap map marked) {symbol : Symbol} {e : EntryId}
    {cell : Cell F} (hmap : map.lookup symbol = some e) (hcell : heap[e]? = some cell) :
    cell.symbol = symbol := by
  obtain ⟨cell', hcell', hsym⟩ := h.mapped symbol e hmap
  rw [hcell] at hcell'
  cases hcell'
  exact hsym

theorem mapped_modify (h : FlagInv heap map marked) (e : EntryId) (f : Cell F → Cell F)
    (hsym : ∀ cell, (f cell).symbol = cell.symbol) (symbol : Symbol) (e' : EntryId)
    (hmap : map.lookup symbol = some e') :
    ∃ cell, (heap.modify e f)[e']? = some cell ∧ cell.symbol = symbol := by
  obtain ⟨cell, hcell, rfl⟩ := h.mapped symbol e' hmap
  rw [List.getElem?_modify, hcell]
  refine ⟨_, rfl, ?_⟩
  split
  · exact hsym cell
  · rfl

/-- Updates that keep symbol and flag. -/
theorem modify (h : FlagInv heap map marked) (e : EntryId) (f : Cell F → Cell F)
    (hsym : ∀ cell, (f cell).symbol = cell.symbol)
    (hflag : ∀ cell, (f cell).removed = cell.removed) :
    FlagInv (heap.modify e f) map marked where
  mapped := h.mapped_modify e f hsym
  flag := by
    intro e' cell hcell
    obtain ⟨x, hx, ⟨-, rfl⟩ | ⟨-, rfl⟩⟩ := getElem?_modify_some hcell
    · rw [hsym, hflag]
      exact h.flag e' x hx
    · exact h.flag e' cell hx

theorem mark (h : FlagInv heap map none) (e : EntryId) :
    FlagInv (heap.modify e fun cell => { cell with removed := true }) map (some e) where
  mapped := h.mapped_modify e _ fun _ => rfl
  flag := by
    intro e' cell hcell
    obtain ⟨x, hx, ⟨rfl, rfl⟩ | ⟨hne, rfl⟩⟩ := getElem?_modify_some hcell
    · simp
    · rw [h.flag e' cell hx]
      simp [hne]

theorem unmark {e : EntryId} (h : FlagInv heap map (some e)) {key : Symbol}
    (hmap : map.lookup key = some e) :
    FlagInv (heap.modify e fun cell => { cell with removed := false }) map none where
  mapped := h.mapped_modify e _ fun _ => rfl
  flag := by
    intro e' cell hcell
    obtain ⟨x, hx, ⟨rfl, rfl⟩ | ⟨hne, rfl⟩⟩ := getElem?_modify_some hcell
    · have hlook : map.lookup x.symbol = some e := h.symbol_eq hmap hx ▸ hmap
      simp [hlook]
    · rw [h.flag e' cell hx]
      simp [hne]

theorem remove {e : EntryId} (h : FlagInv heap map (some e)) {key : Symbol}
    (hmap : map.lookup key = some e) : FlagInv heap (map.erase key) none where
  mapped := by
    intro symbol e' hlook
    by_cases hsym : symbol = key
    · rw [hsym, AList.lookup_erase] at hlook
      cases hlook
    · rw [AList.lookup_erase_ne hsym] at hlook
      exact h.mapped symbol e' hlook
  flag := by
    intro e' cell hcell
    rw [h.flag e' cell hcell]
    by_cases hsym : cell.symbol = key
    · -- the entry mapped under `key` is the marked one
      rw [hsym, AList.lookup_erase, hmap]
      simp
    · rw [AList.lookup_erase_ne hsym]
      have hne : map.lookup cell.symbol = some e' → e ≠ e' := by
        rintro hlook rfl
        obtain ⟨x, hx, hxsym⟩ := h.mapped key e hmap
        rw [hcell] at hx
        cases hx
        exact hsym hxsym
      constructor
      · rintro ⟨hlook, -⟩
        exact ⟨hlook, by simp⟩
      · rintro ⟨hlook, -⟩
        exact ⟨hlook, fun heq => hne hlook (Option.some.inj heq)⟩

theorem insert (h : FlagInv heap map none) {symbol : Symbol}
    (hnone : map.lookup symbol = none) {fresh : Entry F}
    (hfresh : fresh.removed = false) :
    FlagInv (heap ++ [⟨fresh, symbol⟩]) (map.insert symbol heap.length) none where
  mapped := by
    intro symbol' e hlook
    by_cases hsym : symbol' = symbol
    · rw [hsym, AList.lookup_insert] at hlook
      cases hlook
      exact ⟨⟨fresh, symbol⟩, List.getElem?_concat_length, hsym.symm⟩
    · rw [AList.lookup_insert_ne hsym] at hlook
      obtain ⟨cell, hcell, hcsym⟩ := h.mapped symbol' e hlook
      have hlt := (List.getElem?_eq_some_iff.1 hcell).1
      exact ⟨cell, by rwa [List.getElem?_append_left hlt], hcsym⟩
  flag := by
    intro e cell hcell
    rcases getElem?_snoc_some hcell with hold | ⟨rfl, rfl⟩
    · have hlt := (List.getElem?_eq_some_iff.1 hold).1
      rw [h.flag e cell hold]
      by_cases hsym : cell.symbol = symbol
      · rw [hsym, hnone, AList.lookup_insert]
        simp [Nat.ne_of_gt hlt]
      · rw [AList.lookup_insert_ne hsym]
    · simp only [hfresh, AList.lookup_insert, ne_eq, reduceCtorEq, not_false_eq_true,
        and_self]

/-- A live entry is the one mapped under its symbol. -/
theorem lookup_of_live (h : FlagInv heap map marked) {e : EntryId} {cell : Cell F}
    (hcell : heap[e]? = some cell) (hlive : cell.removed = false) :
    map.lookup cell.symbol = some e :=
  ((h.flag e cell hcell).1 hlive).1

end FlagInv

/-! ## The rings and the history -/

/-- The rings hold what the history says was pushed and not overwritten. -/
structure RingInv (heap : List (Cell F)) (map : AList fun _ : Symbol => EntryId)
    (hist : List (Event τ F)) : Prop where
  known : ∀ ev ∈ hist, ∀ e, ev.subject? = some e → e < heap.length
  symbols : ∀ t e symbol candle lost, .push t e symbol candle lost ∈ hist →
    ∃ cell, heap[e]? = some cell ∧ cell.symbol = symbol
  rings : ∀ e cell, heap[e]? = some cell →
    pushesTo e hist = lostTo e hist ++ cell.buf.toVec
  /-- Every candle pushed under a symbol is overwritten, hot or evicted. -/
  conserved : ∀ symbol, (pushesUnder symbol hist).Perm
    (lostUnder symbol hist ++ hotCandles heap map symbol ++ evictedUnder symbol hist)
  /-- An entry out of the map was evicted, and its ring is still the snapshot. -/
  evicted : ∀ e cell, heap[e]? = some cell → map.lookup cell.symbol ≠ some e →
    ∃ t, .evicted t e cell.symbol cell.buf.toVec ∈ hist
  /-- An evicted entry is out of the map, with the ring that was copied. -/
  snapshots : ∀ t e symbol snapshot, .evicted t e symbol snapshot ∈ hist →
    map.lookup symbol ≠ some e ∧
      ∃ cell, heap[e]? = some cell ∧ cell.symbol = symbol ∧ cell.buf.toVec = snapshot

/-- The event neither pushes nor evicts. -/
def Event.isPlain : Event τ F → Bool
  | .push _ _ _ _ _ => false
  | .evicted _ _ _ _ => false
  | _ => true

section Snoc

variable (hist : List (Event τ F)) (e e' : EntryId) (symbol symbol' : Symbol) (t : τ)
  (candle : Candle F) (lost : Option (Candle F)) (snapshot : List (Candle F))
  (uni : Char → Bool) (dir : List Char)

theorem pushesTo_push : pushesTo e (hist ++ [.push t e' symbol candle lost]) =
    pushesTo e hist ++ if e' = e then [candle] else [] := flatMap_snoc _ _ _

theorem lostTo_push : lostTo e (hist ++ [.push t e' symbol candle lost]) =
    lostTo e hist ++ if e' = e then lost.toList else [] := flatMap_snoc _ _ _

theorem pushesUnder_push : pushesUnder symbol (hist ++ [.push t e symbol' candle lost]) =
    pushesUnder symbol hist ++ if symbol' = symbol then [candle] else [] :=
  flatMap_snoc _ _ _

theorem lostUnder_push : lostUnder symbol (hist ++ [.push t e symbol' candle lost]) =
    lostUnder symbol hist ++ if symbol' = symbol then lost.toList else [] :=
  flatMap_snoc _ _ _

theorem evictedUnder_push :
    evictedUnder symbol (hist ++ [.push t e symbol' candle lost]) =
    evictedUnder symbol hist := (flatMap_snoc _ _ _).trans (List.append_nil _)

theorem pushesTo_evicted : pushesTo e (hist ++ [.evicted t e' symbol snapshot]) =
    pushesTo e hist := (flatMap_snoc _ _ _).trans (List.append_nil _)

theorem lostTo_evicted : lostTo e (hist ++ [.evicted t e' symbol snapshot]) =
    lostTo e hist := (flatMap_snoc _ _ _).trans (List.append_nil _)

theorem pushesUnder_evicted :
    pushesUnder symbol (hist ++ [.evicted t e symbol' snapshot]) =
    pushesUnder symbol hist := (flatMap_snoc _ _ _).trans (List.append_nil _)

theorem lostUnder_evicted : lostUnder symbol (hist ++ [.evicted t e symbol' snapshot]) =
    lostUnder symbol hist := (flatMap_snoc _ _ _).trans (List.append_nil _)

theorem evictedUnder_evicted :
    evictedUnder symbol (hist ++ [.evicted t e symbol' snapshot]) =
    evictedUnder symbol hist ++ if symbol' = symbol then snapshot else [] :=
  flatMap_snoc _ _ _

theorem evictedIn_evicted : evictedIn uni dir (hist ++ [.evicted t e symbol snapshot]) =
    evictedIn uni dir hist ++ if escapeSymbol uni symbol = dir then snapshot else [] :=
  flatMap_snoc _ _ _

/-- A plain event adds to none of the lists. -/
theorem flatMap_plain {α : Type} (f : Event τ F → List α) {ev : Event τ F}
    (hev : ev.isPlain = true) (hf : ∀ x : Event τ F, x.isPlain = true → f x = []) :
    (hist ++ [ev]).flatMap f = hist.flatMap f := by
  rw [flatMap_snoc, hf ev hev, List.append_nil]

end Snoc

section Plain

variable {ev : Event τ F} (hist : List (Event τ F)) (e : EntryId) (symbol : Symbol)
  (hev : ev.isPlain = true)
include hev

theorem pushesTo_plain : pushesTo e (hist ++ [ev]) = pushesTo e hist :=
  flatMap_plain _ _ hev fun x hx => by cases x <;> first | rfl | cases hx

theorem lostTo_plain : lostTo e (hist ++ [ev]) = lostTo e hist :=
  flatMap_plain _ _ hev fun x hx => by cases x <;> first | rfl | cases hx

theorem pushesUnder_plain :
    pushesUnder symbol (hist ++ [ev]) = pushesUnder symbol hist :=
  flatMap_plain _ _ hev fun x hx => by cases x <;> first | rfl | cases hx

theorem lostUnder_plain : lostUnder symbol (hist ++ [ev]) = lostUnder symbol hist :=
  flatMap_plain _ _ hev fun x hx => by cases x <;> first | rfl | cases hx

theorem evictedUnder_plain :
    evictedUnder symbol (hist ++ [ev]) = evictedUnder symbol hist :=
  flatMap_plain _ _ hev fun x hx => by cases x <;> first | rfl | cases hx

end Plain

theorem hotCandles_of_lookup {heap : List (Cell F)}
    {map : AList fun _ : Symbol => EntryId} {symbol : Symbol} {e : EntryId}
    {cell : Cell F} (hmap : map.lookup symbol = some e) (hcell : heap[e]? = some cell) :
    hotCandles heap map symbol = cell.buf.toVec := by
  simp [hotCandles, hmap, hcell]

theorem hotCandles_modify {heap : List (Cell F)} {map : AList fun _ : Symbol => EntryId}
    {symbol : Symbol} {e : EntryId} {f : Cell F → Cell F}
    (hbuf : map.lookup symbol = some e → ∀ cell, (f cell).buf = cell.buf) :
    hotCandles (heap.modify e f) map symbol = hotCandles heap map symbol := by
  rw [hotCandles, hotCandles]
  cases hmap : map.lookup symbol with
  | none => rfl
  | some e' =>
      dsimp only
      rw [List.getElem?_modify]
      cases heap[e']? with
      | none => rfl
      | some cell =>
          by_cases he : e = e'
          · subst he
            simp [hbuf hmap]
          · simp [he]

/-- A new entry does not change what the other symbols have hot. -/
theorem FlagInv.hotCandles_insert {heap : List (Cell F)}
    {map : AList fun _ : Symbol => EntryId} {marked : Option EntryId}
    (h : FlagInv heap map marked) {symbol symbol' : Symbol} (hsym : symbol ≠ symbol')
    (fresh : Entry F) :
    hotCandles (heap ++ [⟨fresh, symbol⟩]) (map.insert symbol heap.length) symbol' =
      hotCandles heap map symbol' := by
  rw [hotCandles, hotCandles, AList.lookup_insert_ne (Ne.symm hsym)]
  cases hlook : map.lookup symbol' with
  | none => rfl
  | some e =>
      obtain ⟨cell, hcell, -⟩ := h.mapped symbol' e hlook
      have hlt := (List.getElem?_eq_some_iff.1 hcell).1
      dsimp only
      rw [List.getElem?_append_left hlt]

namespace RingInv

variable {heap : List (Cell F)} {map : AList fun _ : Symbol => EntryId}
  {hist : List (Event τ F)}

theorem known_snoc (h : RingInv heap map hist) {n : Nat} (hn : heap.length ≤ n)
    {ev : Event τ F} (hev : ∀ e, ev.subject? = some e → e < n) :
    ∀ x ∈ hist ++ [ev], ∀ e, x.subject? = some e → e < n := by
  refine List.forall_mem_append.2 ⟨?_, List.forall_mem_singleton.2 hev⟩
  intro x hx e he
  exact Nat.lt_of_lt_of_le (h.known x hx e he) hn

theorem log (h : RingInv heap map hist) {ev : Event τ F} (hev : ev.isPlain = true)
    (hknown : ∀ e, ev.subject? = some e → e < heap.length) :
    RingInv heap map (hist ++ [ev]) where
  known := h.known_snoc (Nat.le_refl _) hknown
  symbols := by
    intro t e symbol candle lost hmem
    rcases List.mem_append.1 hmem with hold | hnew
    · exact h.symbols t e symbol candle lost hold
    · rw [← List.mem_singleton.1 hnew] at hev
      cases hev
  rings := by
    intro e cell hcell
    rw [pushesTo_plain hist e hev, lostTo_plain hist e hev]
    exact h.rings e cell hcell
  conserved := by
    intro symbol
    rw [pushesUnder_plain hist symbol hev, lostUnder_plain hist symbol hev,
      evictedUnder_plain hist symbol hev]
    exact h.conserved symbol
  evicted := by
    intro e cell hcell hmap
    obtain ⟨t, ht⟩ := h.evicted e cell hcell hmap
    exact ⟨t, List.mem_append_left _ ht⟩
  snapshots := by
    intro t e symbol snapshot hmem
    rcases List.mem_append.1 hmem with hold | hnew
    · exact h.snapshots t e symbol snapshot hold
    · rw [← List.mem_singleton.1 hnew] at hev
      cases hev

/-- Updates that keep symbol and ring. -/
theorem modify (h : RingInv heap map hist) (e : EntryId) (f : Cell F → Cell F)
    (hsym : ∀ cell, (f cell).symbol = cell.symbol)
    (hbuf : ∀ cell, (f cell).buf = cell.buf) : RingInv (heap.modify e f) map hist where
  known := by
    rw [List.length_modify]
    exact h.known
  symbols := by
    intro t e' symbol candle lost hmem
    obtain ⟨cell, hcell, rfl⟩ := h.symbols t e' symbol candle lost hmem
    rw [List.getElem?_modify, hcell]
    refine ⟨_, rfl, ?_⟩
    split
    · exact hsym cell
    · rfl
  rings := by
    intro e' cell hcell
    obtain ⟨x, hx, ⟨-, rfl⟩ | ⟨-, rfl⟩⟩ := getElem?_modify_some hcell
    · rw [hbuf]
      exact h.rings e' x hx
    · exact h.rings e' cell hx
  conserved := by
    intro symbol
    rw [hotCandles_modify fun _ => hbuf]
    exact h.conserved symbol
  evicted := by
    intro e' cell hcell hmap
    obtain ⟨x, hx, ⟨-, rfl⟩ | ⟨-, rfl⟩⟩ := getElem?_modify_some hcell
    · rw [hsym] at hmap ⊢
      rw [hbuf]
      exact h.evicted e' x hx hmap
    · exact h.evicted e' cell hx hmap
  snapshots := by
    intro t e' symbol snapshot hmem
    obtain ⟨hout, cell, hcell, rfl, rfl⟩ := h.snapshots t e' symbol snapshot hmem
    rw [List.getElem?_modify, hcell]
    refine ⟨hout, _, rfl, ?_⟩
    split
    · exact ⟨hsym cell, congrArg _ (hbuf cell)⟩
    · exact ⟨rfl, rfl⟩

theorem mark (h : RingInv heap map hist) {e : EntryId} (he : e < heap.length) (t : τ) :
    RingInv (heap.modify e fun cell => { cell with removed := true }) map
      (hist ++ [.snapshot t e]) := by
  refine RingInv.log ?_ rfl ?_
  · exact h.modify e _ (fun _ => rfl) fun _ => rfl
  · intro e' he'
    cases he'
    rwa [List.length_modify]

theorem unmark (h : RingInv heap map hist) {e : EntryId} (he : e < heap.length) (t : τ) :
    RingInv (heap.modify e fun cell => { cell with removed := false }) map
      (hist ++ [.aborted t e]) := by
  refine RingInv.log ?_ rfl ?_
  · exact h.modify e _ (fun _ => rfl) fun _ => rfl
  · intro e' he'
    cases he'
    rwa [List.length_modify]

/-- The pushed candle joins the hot ones and the overwritten one leaves them. -/
theorem conserved_push (h : RingInv heap map hist) {marked : Option EntryId}
    (hflag : FlagInv heap map marked) {e : EntryId} {cell : Cell F}
    (hcell : heap[e]? = some cell) (hmap : map.lookup cell.symbol = some e) (t : τ)
    (candle : Candle F) (symbol : Symbol) :
    (pushesUnder symbol
      (hist ++ [.push t e cell.symbol candle cell.buf.overwritten])).Perm
      (lostUnder symbol (hist ++ [.push t e cell.symbol candle cell.buf.overwritten]) ++
        hotCandles (heap.modify e fun cell =>
          { cell with buf := (cell.buf.push candle).2 }) map
          symbol ++
        evictedUnder symbol
          (hist ++ [.push t e cell.symbol candle cell.buf.overwritten])) := by
  rw [pushesUnder_push, lostUnder_push, evictedUnder_push]
  by_cases hsym : cell.symbol = symbol
  · subst hsym
    have hold := h.conserved cell.symbol
    rw [hotCandles_of_lookup hmap hcell] at hold
    rw [if_pos rfl, if_pos rfl, hotCandles_of_lookup hmap (getElem?_modify_self hcell)]
    calc (pushesUnder cell.symbol hist ++ [candle]).Perm
          (lostUnder cell.symbol hist ++ cell.buf.toVec ++
            evictedUnder cell.symbol hist ++
            [candle]) := hold.append_right _
      _ |>.Perm (lostUnder cell.symbol hist ++ (cell.buf.toVec ++ [candle]) ++
            evictedUnder cell.symbol hist) := by
          simp only [List.append_assoc]
          exact (List.perm_append_comm.append_left _).append_left _
      _ = _ := by
          rw [← cell.buf.overwritten_append_toVec_push candle]
          simp only [List.append_assoc]
  · rw [if_neg hsym, if_neg hsym, List.append_nil, List.append_nil,
      hotCandles_modify fun hlook => absurd (hflag.symbol_eq hlook hcell) hsym]
    exact h.conserved symbol

theorem push (h : RingInv heap map hist) {marked : Option EntryId}
    (hflag : FlagInv heap map marked) {e : EntryId} {cell : Cell F}
    (hcell : heap[e]? = some cell) (hmap : map.lookup cell.symbol = some e) (t : τ)
    (candle : Candle F) :
    RingInv (heap.modify e fun cell => { cell with buf := (cell.buf.push candle).2 }) map
      (hist ++ [.push t e cell.symbol candle cell.buf.overwritten]) where
  known := by
    rw [List.length_modify]
    refine h.known_snoc (Nat.le_refl _) ?_
    intro e' he'
    cases he'
    exact (List.getElem?_eq_some_iff.1 hcell).1
  symbols := by
    intro t' e' symbol candle' lost hmem
    have hold : ∃ x, heap[e']? = some x ∧ x.symbol = symbol := by
      rcases List.mem_append.1 hmem with hold | hnew
      · exact h.symbols t' e' symbol candle' lost hold
      · cases List.mem_singleton.1 hnew
        exact ⟨cell, hcell, rfl⟩
    obtain ⟨x, hx, rfl⟩ := hold
    rw [List.getElem?_modify, hx]
    refine ⟨_, rfl, ?_⟩
    split <;> rfl
  rings := by
    intro e' cell' hcell'
    obtain ⟨x, hx, ⟨rfl, rfl⟩ | ⟨hne, rfl⟩⟩ := getElem?_modify_some hcell'
    · rw [hcell] at hx
      cases hx
      rw [pushesTo_push, lostTo_push, if_pos rfl, if_pos rfl, h.rings e cell hcell,
        List.append_assoc, List.append_assoc,
        cell.buf.overwritten_append_toVec_push candle]
    · rw [pushesTo_push, lostTo_push, if_neg hne, if_neg hne, List.append_nil,
        List.append_nil]
      exact h.rings e' cell' hx
  conserved := h.conserved_push hflag hcell hmap t candle
  evicted := by
    intro e' cell' hcell' hmap'
    obtain ⟨x, hx, ⟨rfl, rfl⟩ | ⟨hne, rfl⟩⟩ := getElem?_modify_some hcell'
    · rw [hcell] at hx
      cases hx
      exact absurd hmap hmap'
    · obtain ⟨u, hu⟩ := h.evicted e' cell' hx hmap'
      exact ⟨u, List.mem_append_left _ hu⟩
  snapshots := by
    intro u e' symbol snapshot hmem
    rcases List.mem_append.1 hmem with hold | hnew
    · obtain ⟨hout, x, hx, rfl, rfl⟩ := h.snapshots u e' symbol snapshot hold
      have hne : e ≠ e' := by
        rintro rfl
        rw [hcell] at hx
        cases hx
        exact hout hmap
      refine ⟨hout, x, ?_, rfl, rfl⟩
      rw [List.getElem?_modify, hx, Option.map_eq_map, Option.map_some, if_neg hne]
    · cases List.mem_singleton.1 hnew

/-- The hot candles of an evicted entry become evicted ones. -/
theorem conserved_remove (h : RingInv heap map hist) {key : Symbol} {e : EntryId}
    {cell : Cell F} (hmap : map.lookup key = some e) (hcell : heap[e]? = some cell)
    (t : τ) (symbol : Symbol) :
    (pushesUnder symbol (hist ++ [.evicted t e key cell.buf.toVec])).Perm
      (lostUnder symbol (hist ++ [.evicted t e key cell.buf.toVec]) ++
        hotCandles heap (map.erase key) symbol ++
        evictedUnder symbol (hist ++ [.evicted t e key cell.buf.toVec])) := by
  rw [pushesUnder_evicted, lostUnder_evicted, evictedUnder_evicted]
  by_cases hsym : key = symbol
  · subst hsym
    have hhot : hotCandles heap (map.erase key) key = [] := by
      rw [hotCandles, AList.lookup_erase]
    have hold := h.conserved key
    rw [hotCandles_of_lookup hmap hcell, List.append_assoc] at hold
    rw [hhot, List.append_nil, if_pos rfl]
    exact hold.trans (List.perm_append_comm.append_left _)
  · have hhot : hotCandles heap (map.erase key) symbol = hotCandles heap map symbol := by
      rw [hotCandles, hotCandles, AList.lookup_erase_ne (Ne.symm hsym)]
    rw [hhot, if_neg hsym, List.append_nil]
    exact h.conserved symbol

theorem remove (h : RingInv heap map hist) {key : Symbol} {e : EntryId} {cell : Cell F}
    (hmap : map.lookup key = some e) (hcell : heap[e]? = some cell)
    (hkey : cell.symbol = key) (t : τ) :
    RingInv heap (map.erase key) (hist ++ [.evicted t e key cell.buf.toVec]) where
  known := by
    refine h.known_snoc (Nat.le_refl _) ?_
    intro e' he'
    cases he'
    exact (List.getElem?_eq_some_iff.1 hcell).1
  symbols := by
    intro t' e' symbol candle lost hmem
    rcases List.mem_append.1 hmem with hold | hnew
    · exact h.symbols t' e' symbol candle lost hold
    · cases List.mem_singleton.1 hnew
  rings := by
    intro e' cell' hcell'
    rw [pushesTo_evicted, lostTo_evicted]
    exact h.rings e' cell' hcell'
  conserved := h.conserved_remove hmap hcell t
  evicted := by
    intro e' cell' hcell' hmap'
    by_cases he : e' = e
    · subst he
      rw [hcell] at hcell'
      cases hcell'
      exact ⟨t, List.mem_append_right _ (List.mem_singleton.2 (by rw [hkey]))⟩
    · have hout : map.lookup cell'.symbol ≠ some e' := by
        by_cases hsym : cell'.symbol = key
        · rw [hsym, hmap]
          exact fun heq => he (Option.some.inj heq).symm
        · rwa [AList.lookup_erase_ne hsym] at hmap'
      obtain ⟨u, hu⟩ := h.evicted e' cell' hcell' hout
      exact ⟨u, List.mem_append_left _ hu⟩
  snapshots := by
    intro u e' symbol snapshot hmem
    rcases List.mem_append.1 hmem with hold | hnew
    · obtain ⟨hout, hcell'⟩ := h.snapshots u e' symbol snapshot hold
      refine ⟨?_, hcell'⟩
      by_cases hsym : symbol = key
      · rw [hsym, AList.lookup_erase]
        exact fun heq => by cases heq
      · rwa [AList.lookup_erase_ne hsym]
    · cases List.mem_singleton.1 hnew
      refine ⟨?_, cell, hcell, hkey, rfl⟩
      rw [AList.lookup_erase]
      exact fun heq => by cases heq

/-- Nothing has been pushed into an entry that is not there yet. -/
theorem pushesTo_length (h : RingInv heap map hist) :
    pushesTo heap.length hist = [] := by
  rw [pushesTo, List.flatMap_eq_nil_iff]
  intro ev hmem
  cases ev with
  | push t e symbol candle lost =>
      have hlt := h.known _ hmem e rfl
      exact if_neg (Nat.ne_of_lt hlt)
  | _ => rfl

theorem lostTo_length (h : RingInv heap map hist) : lostTo heap.length hist = [] := by
  rw [lostTo, List.flatMap_eq_nil_iff]
  intro ev hmem
  cases ev with
  | push t e symbol candle lost =>
      have hlt := h.known _ hmem e rfl
      exact if_neg (Nat.ne_of_lt hlt)
  | _ => rfl

/-- A new entry is the whole of what its symbol has hot. -/
theorem conserved_insert (h : RingInv heap map hist) {marked : Option EntryId}
    (hflag : FlagInv heap map marked) {symbol : Symbol}
    (hnone : map.lookup symbol = none) {fresh : Entry F} {candle : Candle F}
    (hfresh : fresh.buf.toVec = [candle]) (t : τ) (symbol' : Symbol) :
    (pushesUnder symbol' (hist ++ [.push t heap.length symbol candle none])).Perm
      (lostUnder symbol' (hist ++ [.push t heap.length symbol candle none]) ++
        hotCandles (heap ++ [⟨fresh, symbol⟩]) (map.insert symbol heap.length) symbol' ++
        evictedUnder symbol' (hist ++ [.push t heap.length symbol candle none])) := by
  rw [pushesUnder_push, lostUnder_push, evictedUnder_push, Option.toList_none, ite_self,
    List.append_nil]
  by_cases hsym : symbol = symbol'
  · subst hsym
    have hempty : hotCandles heap map symbol = [] := by rw [hotCandles, hnone]
    have hold := h.conserved symbol
    rw [hempty, List.append_nil] at hold
    rw [if_pos rfl, hotCandles_of_lookup (AList.lookup_insert map)
      List.getElem?_concat_length, hfresh]
    calc (pushesUnder symbol hist ++ [candle]).Perm
          (lostUnder symbol hist ++ evictedUnder symbol hist ++ [candle]) :=
            hold.append_right _
      _ |>.Perm (lostUnder symbol hist ++ [candle] ++ evictedUnder symbol hist) := by
          simp only [List.append_assoc]
          exact List.perm_append_comm.append_left _
  · rw [if_neg hsym, List.append_nil, hflag.hotCandles_insert hsym fresh]
    exact h.conserved symbol'

theorem insert (h : RingInv heap map hist) {marked : Option EntryId}
    (hflag : FlagInv heap map marked) {symbol : Symbol}
    (hnone : map.lookup symbol = none) {fresh : Entry F} {candle : Candle F}
    (hfresh : fresh.buf.toVec = [candle]) (t : τ) :
    RingInv (heap ++ [⟨fresh, symbol⟩]) (map.insert symbol heap.length)
      (hist ++ [.push t heap.length symbol candle none]) where
  known := by
    rw [List.length_append, List.length_singleton]
    refine h.known_snoc (Nat.le_succ _) ?_
    intro e he
    cases he
    exact Nat.lt_succ_self _
  symbols := by
    intro t' e symbol' candle' lost hmem
    rcases List.mem_append.1 hmem with hold | hnew
    · obtain ⟨cell, hcell, hsym⟩ := h.symbols t' e symbol' candle' lost hold
      have hlt := (List.getElem?_eq_some_iff.1 hcell).1
      exact ⟨cell, by rwa [List.getElem?_append_left hlt], hsym⟩
    · cases List.mem_singleton.1 hnew
      exact ⟨⟨fresh, symbol⟩, List.getElem?_concat_length, rfl⟩
  rings := by
    intro e cell hcell
    rcases getElem?_snoc_some hcell with hold | ⟨rfl, rfl⟩
    · have hne : heap.length ≠ e := Nat.ne_of_gt (List.getElem?_eq_some_iff.1 hold).1
      rw [pushesTo_push, lostTo_push, if_neg hne, if_neg hne, List.append_nil,
        List.append_nil]
      exact h.rings e cell hold
    · rw [pushesTo_push, lostTo_push, if_pos rfl, if_pos rfl, h.pushesTo_length,
        h.lostTo_length, hfresh]
      rfl
  conserved := h.conserved_insert hflag hnone hfresh t
  evicted := by
    intro e cell hcell hout
    rcases getElem?_snoc_some hcell with hold | ⟨rfl, rfl⟩
    · have hold' : map.lookup cell.symbol ≠ some e := by
        by_cases hsym : cell.symbol = symbol
        · rw [hsym, hnone]
          exact fun heq => by cases heq
        · rwa [AList.lookup_insert_ne hsym] at hout
      obtain ⟨u, hu⟩ := h.evicted e cell hold hold'
      exact ⟨u, List.mem_append_left _ hu⟩
    · exact absurd (AList.lookup_insert map) hout
  snapshots := by
    intro u e symbol' snapshot hmem
    rcases List.mem_append.1 hmem with hold | hnew
    · obtain ⟨hout, cell, hcell, hrest⟩ := h.snapshots u e symbol' snapshot hold
      have hlt := (List.getElem?_eq_some_iff.1 hcell).1
      refine ⟨?_, cell, by rwa [List.getElem?_append_left hlt], hrest⟩
      by_cases hsym : symbol' = symbol
      · rw [hsym, AList.lookup_insert]
        exact fun heq => absurd (Option.some.inj heq) (Nat.ne_of_gt hlt)
      · rwa [AList.lookup_insert_ne hsym]
    · cases List.mem_singleton.1 hnew

end RingInv

/-! ## What explains an event -/

/-- Every eviction of `e` that was begun has been given up. -/
def Open (e : EntryId) (hist : List (Event τ F)) : Prop :=
  ∀ past u later, hist = past ++ .snapshot u e :: later → ∃ v, .aborted v e ∈ later

/-- What must have happened before an event: pushes go into entries that are
not being evicted, and a caller starts over only if its entry was flagged after
it was looked up. -/
def Justified (past : List (Event τ F)) : Event τ F → Prop
  | .push _ e _ _ _ => Open e past
  | .retry t e => ∃ before after, past = before ++ .lookup t (some e) :: after ∧
      (∀ ev ∈ after, ev.thread ≠ t) ∧ ∃ u, .snapshot u e ∈ after
  | _ => True

/-- Every event is explained by those before it. -/
structure TraceInv (heap : List (Cell F)) (hist : List (Event τ F)) : Prop where
  explained : Explained Justified hist
  live : ∀ e cell, heap[e]? = some cell → cell.removed = false → Open e hist

theorem Open.snoc {e : EntryId} {hist : List (Event τ F)} (h : Open e hist)
    {ev : Event τ F} (hev : ∀ u, ev ≠ .snapshot u e) : Open e (hist ++ [ev]) := by
  intro past u later heq
  rcases List.eq_nil_or_concat later with rfl | ⟨later, x, rfl⟩
  · obtain ⟨-, hlast⟩ := List.append_inj' heq rfl
    cases hlast
    exact absurd rfl (hev u)
  · rw [List.concat_eq_append, ← List.cons_append, ← List.append_assoc] at heq
    obtain ⟨hhist, -⟩ := List.append_inj' heq rfl
    obtain ⟨v, hv⟩ := h past u later hhist
    exact ⟨v, by rw [List.concat_eq_append]; exact List.mem_append_left _ hv⟩

theorem open_aborted (e : EntryId) (hist : List (Event τ F)) (t : τ) :
    Open e (hist ++ [.aborted t e]) := by
  intro past u later heq
  rcases List.eq_nil_or_concat later with rfl | ⟨later, x, rfl⟩
  · obtain ⟨-, hlast⟩ := List.append_inj' heq rfl
    cases hlast
  · rw [List.concat_eq_append, ← List.cons_append, ← List.append_assoc] at heq
    obtain ⟨-, hlast⟩ := List.append_inj' heq rfl
    cases hlast
    exact ⟨t, by rw [List.concat_eq_append]; exact List.mem_append_right _ (by simp)⟩

namespace TraceInv

variable {heap : List (Cell F)} {hist : List (Event τ F)}

theorem log (h : TraceInv heap hist) {ev : Event τ F} (hev : ∀ u e, ev ≠ .snapshot u e)
    (hjust : Justified hist ev) : TraceInv heap (hist ++ [ev]) where
  explained := h.explained.snoc hjust
  live := fun e cell hcell hlive => (h.live e cell hcell hlive).snoc fun u => hev u e

/-- Updates that keep the flag. -/
theorem modify (h : TraceInv heap hist) (e : EntryId) (f : Cell F → Cell F)
    (hflag : ∀ cell, (f cell).removed = cell.removed) :
    TraceInv (heap.modify e f) hist where
  explained := h.explained
  live := by
    intro e' cell hcell hlive
    obtain ⟨x, hx, ⟨-, rfl⟩ | ⟨-, rfl⟩⟩ := getElem?_modify_some hcell
    · exact h.live e' x hx (by rwa [hflag] at hlive)
    · exact h.live e' cell hx hlive

theorem push (h : TraceInv heap hist) {e : EntryId} {cell : Cell F}
    (hcell : heap[e]? = some cell) (hlive : cell.removed = false) (t : τ)
    (symbol : Symbol) (candle : Candle F) (lost : Option (Candle F)) :
    TraceInv (heap.modify e fun cell => { cell with buf := (cell.buf.push candle).2 })
      (hist ++ [.push t e symbol candle lost]) := by
  have hjust : Justified hist (.push t e symbol candle lost) := h.live e cell hcell hlive
  refine TraceInv.log ?_ ?_ hjust
  · exact h.modify e _ fun _ => rfl
  · exact fun _ _ heq => by cases heq

theorem mark (h : TraceInv heap hist) (e : EntryId) (t : τ) :
    TraceInv (heap.modify e fun cell => { cell with removed := true })
      (hist ++ [.snapshot t e]) where
  explained := h.explained.snoc trivial
  live := by
    intro e' cell hcell hlive
    obtain ⟨x, hx, ⟨rfl, rfl⟩ | ⟨hne, rfl⟩⟩ := getElem?_modify_some hcell
    · cases hlive
    · refine (h.live e' cell hx hlive).snoc ?_
      intro u heq
      cases heq
      exact hne rfl

theorem unmark (h : TraceInv heap hist) (e : EntryId) (t : τ) :
    TraceInv (heap.modify e fun cell => { cell with removed := false })
      (hist ++ [.aborted t e]) where
  explained := h.explained.snoc trivial
  live := by
    intro e' cell hcell hlive
    obtain ⟨x, hx, ⟨rfl, rfl⟩ | ⟨-, rfl⟩⟩ := getElem?_modify_some hcell
    · exact open_aborted e hist t
    · exact (h.live e' cell hx hlive).snoc fun u heq => by cases heq

theorem insert (h : TraceInv heap hist) {map : AList fun _ : Symbol => EntryId}
    (hring : RingInv heap map hist) (fresh : Entry F) (symbol : Symbol)
    (candle : Candle F) (t : τ) : TraceInv (heap ++ [⟨fresh, symbol⟩])
      (hist ++ [.push t heap.length symbol candle none]) := by
  have hopen : Open heap.length hist := by
    rintro past u later rfl
    have hlt := hring.known (.snapshot u heap.length) (by simp) heap.length rfl
    exact absurd hlt (Nat.lt_irrefl _)
  refine ⟨h.explained.snoc hopen, ?_⟩
  intro e cell hcell hlive
  refine Open.snoc ?_ fun u heq => by cases heq
  rcases getElem?_snoc_some hcell with hold | ⟨rfl, -⟩
  · exact h.live e cell hold hlive
  · exact hopen

end TraceInv

/-! ## The cold files -/

/-- The readable rows of a directory are the snapshots evicted into it. -/
structure ColdInv (cfg : Config) (files : List (ColdFile F))
    (pending : Option (Victim F)) (hist : List (Event τ F)) : Prop where
  stored : cfg.dataDir = true → ∀ dir,
    stored files dir = evictedIn cfg.uni dir hist ++ pendingIn cfg.uni dir pending
  advertised : ∀ f ∈ files, Advertised f

/-- A file created for a snapshot and not yet written, in a directory that held
the files `old`. -/
structure Created (cfg : Config) (files : List (ColdFile F)) (v : Victim F)
    (name : List Char) : Prop where
  created : ∃ old, files = createFile old (escapeSymbol cfg.uni v.key) name ∧
    pathExists old (escapeSymbol cfg.uni v.key) name = false
  named : Advertised ⟨escapeSymbol cfg.uni v.key, name, candleTable v.snapshot⟩

namespace ColdInv

variable {cfg : Config} {files : List (ColdFile F)} {pending : Option (Victim F)}
  {hist : List (Event τ F)}

theorem log (h : ColdInv cfg files pending hist) {ev : Event τ F}
    (hev : ∀ uni dir, evictedIn uni dir [ev] = []) :
    ColdInv cfg files pending (hist ++ [ev]) where
  stored := by
    intro hdir dir
    have hadd : evictedIn cfg.uni dir (hist ++ [ev]) = evictedIn cfg.uni dir hist := by
      rw [evictedIn, List.flatMap_append]
      exact (congrArg _ (hev cfg.uni dir)).trans (List.append_nil _)
    rw [hadd]
    exact h.stored hdir dir
  advertised := h.advertised

theorem stored_createFile (fs : List (ColdFile F)) (dir name dir' : List Char) :
    Candlestore.stored (createFile fs dir name) dir' = Candlestore.stored fs dir' := by
  rw [createFile, stored_append, stored_singleton]
  split
  · exact List.append_nil _
  · exact List.append_nil _

theorem create (h : ColdInv cfg files pending hist) {dir name : List Char} {s e : Int}
    (hname : IsColdName s e name) :
    ColdInv cfg (createFile files dir name) pending hist where
  stored := by
    intro hdir dir'
    rw [stored_createFile]
    exact h.stored hdir dir'
  advertised := by
    intro f hf
    rcases List.mem_append.1 hf with hold | hnew
    · exact h.advertised f hold
    · rw [List.mem_singleton.1 hnew]
      exact advertised_truncated dir name s e hname

theorem write (h : ColdInv cfg files none hist) {v : Victim F} {name : List Char}
    (hcreated : Created cfg files v name) :
    ColdInv cfg (writeTable files (escapeSymbol cfg.uni v.key) name v.snapshot)
    (some v) hist := by
  obtain ⟨⟨old, rfl, hfree⟩, hadv⟩ := hcreated
  rw [writeTable_createFile old _ name _ hfree]
  constructor
  · intro hdir dir
    have hold := h.stored hdir dir
    rw [stored_createFile, pendingIn, List.append_nil] at hold
    rw [stored_append, hold, stored_singleton, pendingIn, fileRows, readFile_candleTable]
  · intro f hf
    rcases List.mem_append.1 hf with hold | hnew
    · exact h.advertised f (List.mem_append_left _ hold)
    · rw [List.mem_singleton.1 hnew]
      exact hadv

theorem remove (h : ColdInv cfg files pending hist) {v : Victim F}
    (hpending : cfg.dataDir = true → pending = some v ∨ v.snapshot = [] ∧ pending = none)
    (t : τ) :
    ColdInv cfg files none (hist ++ [.evicted t v.entry v.key v.snapshot]) where
  stored := by
    intro hdir dir
    have hrows : pendingIn cfg.uni dir pending =
        if escapeSymbol cfg.uni v.key = dir then v.snapshot else [] := by
      rcases hpending hdir with rfl | ⟨hnil, rfl⟩
      · rfl
      · rw [hnil, ite_self, pendingIn]
    rw [h.stored hdir dir, hrows, evictedIn_evicted, pendingIn, List.append_nil]
  advertised := h.advertised

end ColdInv

end Candlestore.Concurrent
