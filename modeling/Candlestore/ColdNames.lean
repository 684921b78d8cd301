import Candlestore.Parquet

/-!
# The names of cold files

A spill of the range `[s, e]` writes to `{s}_{e}.parquet` or, when that exists,
to `{s}_{e}-{n}.parquet` for the first free `n`.  `-` is the sign of a number
and the separator of the counter, and `_` separates the two numbers; still every
name decodes to the range it was made for, and distinct ranges and counters have
distinct names.

The counter is a `u32`.  It wraps after `2 ^ 32` names, so the collision loop
tries finitely many: it ends exactly if one of them is free.
-/

namespace Candlestore

open Lib

variable {F : Type}

/-- The name for a range without a counter, or with one. -/
def spillName (s e : Int) : Option UInt32 → List Char
  | none => coldFileName s e
  | some n => suffixedFileName s e n.toNat

theorem isColdName_iff {s e : Int} {name : List Char} :
    IsColdName s e name ↔ ∃ suffix, name = spillName s e suffix := by
  constructor
  · rintro (rfl | ⟨n, hn, rfl⟩)
    · exact ⟨none, rfl⟩
    · refine ⟨some (UInt32.ofNat n), ?_⟩
      rw [spillName, UInt32.toNat_ofNat_of_lt' hn]
  · rintro ⟨suffix | n, rfl⟩
    · exact Or.inl rfl
    · exact Or.inr ⟨n.toNat, n.toNat_lt, rfl⟩

theorem stem_inj {s s' : Int} {t t' : List Char}
    (h : (showInt s ++ '_' :: t) ++ '.' :: parquetExt =
      (showInt s' ++ '_' :: t') ++ '.' :: parquetExt) : s = s' ∧ t = t' := by
  have hstem := List.append_cancel_right h
  have hsplit := splitOnce_append '_' (showInt s) t
    (not_mem_showInt s '_' (by decide) (by decide))
  rw [hstem, splitOnce_append '_' _ _ (not_mem_showInt s' '_' (by decide) (by decide)),
    Option.some.injEq, Prod.mk.injEq] at hsplit
  exact ⟨(showInt_inj hsplit.1).symm, hsplit.2.symm⟩

theorem dash_inj {e e' : Int} {n n' : Nat}
    (h : showInt e ++ '-' :: showNat n = showInt e' ++ '-' :: showNat n') :
    e = e' ∧ n = n' := by
  have hsplit := rsplitOnce_append '-' (showInt e) _ (not_mem_showNat n '-' (by decide))
  rw [h, rsplitOnce_append '-' _ _ (not_mem_showNat n' '-' (by decide)),
    Option.some.injEq, Prod.mk.injEq] at hsplit
  exact ⟨(showInt_inj hsplit.1).symm, (showNat_inj hsplit.2).symm⟩

/-- A name belongs to one range and one counter. -/
theorem spillName_inj {s e s' e' : Int} {suffix suffix' : Option UInt32}
    (h : spillName s e suffix = spillName s' e' suffix') :
    s = s' ∧ e = e' ∧ suffix = suffix' := by
  cases suffix with
  | none =>
      cases suffix' with
      | none =>
          obtain ⟨hs, he⟩ := stem_inj h
          exact ⟨hs, showInt_inj he, rfl⟩
      | some n => exact absurd (stem_inj h).2 (showInt_ne_dash e e' _)
  | some n =>
      cases suffix' with
      | none => exact absurd (stem_inj h).2.symm (showInt_ne_dash e' e _)
      | some n' =>
          obtain ⟨hs, hrest⟩ := stem_inj h
          obtain ⟨he, hn⟩ := dash_inj hrest
          exact ⟨hs, he, congrArg some (UInt32.toNat_inj.1 hn)⟩

theorem parseTsRange_spillName {s e : Int} (hs : InI64 s) (he : InI64 e)
    (suffix : Option UInt32) : parseTsRange (spillName s e suffix) = some (s, e) := by
  cases suffix with
  | none => rw [spillName, parseTsRange_coldFileName, if_pos ⟨hs, he⟩]
  | some n =>
      rw [spillName, parseTsRange_suffixedFileName s e _ n.toNat_lt, if_pos ⟨hs, he⟩]

/-! ## The collision loop -/

/-- The counter of the `i`-th name that the loop tries. -/
def triedSuffix : Nat → Option UInt32
  | 0 => none
  | i + 1 => some (UInt32.ofNat (i + 1))

theorem triedSuffix_of_pos {i : Nat} (hi : 0 < i) :
    triedSuffix i = some (UInt32.ofNat i) := by
  cases i with
  | zero => exact absurd hi (Nat.lt_irrefl 0)
  | succ i => rfl

/-- The counter takes every value before it repeats one. -/
theorem triedSuffix_inj {i j : Nat} (hi : i ≤ 2 ^ 32) (hj : j ≤ 2 ^ 32)
    (h : triedSuffix i = triedSuffix j) : i = j := by
  cases i with
  | zero =>
      cases j with
      | zero => rfl
      | succ j => cases h
  | succ i =>
      cases j with
      | zero => cases h
      | succ j =>
          have hmod := congrArg UInt32.toNat (Option.some.inj h)
          rw [UInt32.toNat_ofNat', UInt32.toNat_ofNat'] at hmod
          omega

theorem exists_triedSuffix (suffix : Option UInt32) :
    ∃ i ≤ 2 ^ 32, triedSuffix i = suffix := by
  cases suffix with
  | none => exact ⟨0, Nat.zero_le _, rfl⟩
  | some n =>
      rcases Nat.eq_zero_or_pos n.toNat with hzero | hpos
      · -- zero comes last, when the counter has wrapped
        refine ⟨2 ^ 32, Nat.le_refl _, ?_⟩
        rw [triedSuffix_of_pos (by decide)]
        apply congrArg some
        rw [← UInt32.toNat_inj, UInt32.toNat_ofNat', hzero, Nat.mod_self]
      · refine ⟨n.toNat, n.toNat_lt.le, ?_⟩
        rw [triedSuffix_of_pos hpos, UInt32.ofNat_toNat]

section Loop

variable {fs : List (ColdFile F)} {dir : List Char} {s e : Int}

/-- The loop ends at or before a free name. -/
theorem freeNameLoop_isSome_of_free {j : Nat}
    (hfree : pathExists fs dir (spillName s e (triedSuffix j)) = false) (fuel i : Nat)
    (hi : i ≤ j) (hfuel : j < i + fuel) :
    (freeNameLoop fs dir s e fuel ((i + 1) % 2 ^ 32)
      (spillName s e (triedSuffix i))).isSome = true := by
  induction fuel generalizing i with
  | zero => omega
  | succ fuel ih =>
      rw [freeNameLoop]
      split
      · next htaken =>
          have hne : i ≠ j := by
            rintro rfl
            cases htaken.symm.trans hfree
          have hname : suffixedFileName s e ((i + 1) % 2 ^ 32) =
              spillName s e (triedSuffix (i + 1)) := by
            rw [triedSuffix, spillName, UInt32.toNat_ofNat']
          rw [Nat.mod_add_mod, hname]
          exact ih (i + 1) (by omega) (by omega)
      · rfl

theorem mem_names_of_pathExists {name : List Char} (h : pathExists fs dir name = true) :
    name ∈ fs.map ColdFile.name := by
  obtain ⟨f, hf, hpath⟩ := List.any_eq_true.1 h
  simp only [Bool.and_eq_true, beq_iff_eq] at hpath
  exact List.mem_map.2 ⟨f, hf, hpath.2⟩

/-- The names that the loop tries are distinct until the counter has wrapped. -/
theorem le_length_of_tried {names : List (List Char)} {n : Nat} (hn : n ≤ 2 ^ 32 + 1)
    (htried : ∀ i < n, spillName s e (triedSuffix i) ∈ names) : n ≤ names.length := by
  have hsub : (List.range n).map (fun i => spillName s e (triedSuffix i)) ⊆ names := by
    intro name hname
    obtain ⟨i, hi, rfl⟩ := List.mem_map.1 hname
    exact htried i (List.mem_range.1 hi)
  have hnodup : ((List.range n).map fun i => spillName s e (triedSuffix i)).Nodup := by
    refine List.Nodup.map_on ?_ List.nodup_range
    intro i hi j hj h
    have hi' := List.mem_range.1 hi
    have hj' := List.mem_range.1 hj
    exact triedSuffix_inj (by omega) (by omega) (spillName_inj h).2.2
  have hcount := (List.subperm_of_subset hnodup hsub).length_le
  rwa [List.length_map, List.length_range] at hcount

/-- The loop ends exactly if one of the names is free. -/
theorem freeName_isSome_iff :
    (freeName fs dir s e).isSome = true ↔
      ∃ suffix, pathExists fs dir (spillName s e suffix) = false := by
  constructor
  · intro hsome
    obtain ⟨name, hname⟩ := Option.isSome_iff_exists.1 hsome
    obtain ⟨hcold, hfree⟩ := freeName_spec fs dir s e name hname
    obtain ⟨suffix, rfl⟩ := isColdName_iff.1 hcold
    exact ⟨suffix, hfree⟩
  · rintro ⟨suffix, hsuffix⟩
    obtain ⟨i, hi, rfl⟩ := exists_triedSuffix suffix
    -- all names before the first free one are files, which bounds the steps
    have hex : ∃ j, pathExists fs dir (spillName s e (triedSuffix j)) = false :=
      ⟨i, hsuffix⟩
    have hle : Nat.find hex ≤ i := Nat.find_min' hex hsuffix
    have hlen : Nat.find hex ≤ (fs.map ColdFile.name).length := by
      apply le_length_of_tried (by omega)
      intro k hk
      exact mem_names_of_pathExists (by simpa using Nat.find_min hex hk)
    rw [List.length_map] at hlen
    exact freeNameLoop_isSome_of_free (Nat.find_spec hex) _ 0 (Nat.zero_le _) (by omega)

/-- All `2 ^ 32 + 1` names have to be taken to keep the loop from ending. -/
theorem freeName_isSome_of_taken {names : List (List Char)}
    (hlen : names.length ≤ 2 ^ 32)
    (htaken : ∀ suffix, pathExists fs dir (spillName s e suffix) = true →
      spillName s e suffix ∈ names) : (freeName fs dir s e).isSome = true := by
  rw [freeName_isSome_iff]
  by_contra hnone
  push Not at hnone
  have htried : ∀ i < 2 ^ 32 + 1, spillName s e (triedSuffix i) ∈ names := by
    intro i _
    exact htaken _ (by simpa using hnone (triedSuffix i))
  have hcount := le_length_of_tried (Nat.le_refl _) htried
  omega

theorem freeName_isSome_of_length_le (hlen : fs.length ≤ 2 ^ 32) :
    (freeName fs dir s e).isSome = true :=
  freeName_isSome_of_taken ((List.length_map _).trans_le hlen) fun _ =>
    mem_names_of_pathExists

/-- With every name taken the loop goes on for any number of steps. -/
theorem freeNameLoop_eq_none
    (htaken : ∀ suffix, pathExists fs dir (spillName s e suffix) = true)
    (fuel : Nat) : ∀ {n : Nat} {name : List Char}, n < 2 ^ 32 → IsColdName s e name →
      freeNameLoop fs dir s e fuel n name = none := by
  induction fuel with
  | zero =>
      intro n name _ _
      rfl
  | succ fuel ih =>
      intro n name hn hname
      obtain ⟨suffix, rfl⟩ := isColdName_iff.1 hname
      rw [freeNameLoop, if_pos (htaken suffix)]
      exact ih (Nat.mod_lt _ (by decide)) (Or.inr ⟨n, hn, rfl⟩)

end Loop

/-- Cold file names decode to what was encoded.  Both forms of a name parse to
the range, so a query prunes by it; a name determines its range and counter; and
the collision loop ends exactly if one of the names of the range is free, which
is so in any directory of up to `2 ^ 32` files, and then on a free name. -/
theorem cold_names_decode (s e : Int) (hs : InI64 s) (he : InI64 e) :
    (∀ suffix, parseTsRange (spillName s e suffix) = some (s, e) ∧
      ∀ fromTs toTs, isPruned (spillName s e suffix) fromTs toTs =
        (decide (e < fromTs) || decide (s > toTs))) ∧
    (∀ s' e' suffix suffix', spillName s e suffix = spillName s' e' suffix' →
      s = s' ∧ e = e' ∧ suffix = suffix') ∧
    ∀ (fs : List (ColdFile F)) (dir : List Char),
      ((freeName fs dir s e).isSome = true ↔
        ∃ suffix, pathExists fs dir (spillName s e suffix) = false) ∧
      (fs.length ≤ 2 ^ 32 → (freeName fs dir s e).isSome = true) ∧
      ∀ name, freeName fs dir s e = some name →
        pathExists fs dir name = false ∧ ∃ suffix, name = spillName s e suffix := by
  refine ⟨?_, fun s' e' suffix suffix' => spillName_inj, ?_⟩
  · intro suffix
    have hparse := parseTsRange_spillName hs he suffix
    refine ⟨hparse, ?_⟩
    intro fromTs toTs
    rw [isPruned, hparse]
  · intro fs dir
    refine ⟨freeName_isSome_iff, freeName_isSome_of_length_le, ?_⟩
    intro name hname
    obtain ⟨hcold, hfree⟩ := freeName_spec fs dir s e name hname
    exact ⟨hfree, isColdName_iff.1 hcold⟩

/-- A negative range whose plain name is taken. -/
theorem cold_names_decode_negative :
    let fs : List (ColdFile ℚ) := [⟨['B'], coldFileName (-5) (-1), .truncated⟩]
    parseTsRange (spillName (-5) (-1) (some 1)) = some (-5, -1) ∧
      pathExists fs ['B'] (spillName (-5) (-1) none) = true ∧
      (freeName fs ['B'] (-5) (-1)).isSome = true := by
  intro fs
  have h := cold_names_decode (F := ℚ) (-5) (-1) (by decide) (by decide)
  refine ⟨(h.1 (some 1)).1, ?_, (h.2.2 fs ['B']).2.1 ?_⟩
  · simp [fs, pathExists, spillName]
  · decide

/-- A directory that has all `2 ^ 32 + 1` names of a range: the
collision loop never ends. -/
theorem collision_loop_never_ends :
    ∃ fs : List (ColdFile ℚ), ∀ fuel,
      freeNameLoop fs ['B'] 0 0 fuel 1 (coldFileName 0 0) = none := by
  refine ⟨⟨['B'], coldFileName 0 0, .truncated⟩ :: (List.range (2 ^ 32)).map fun n =>
    ⟨['B'], suffixedFileName 0 0 n, .truncated⟩, ?_⟩
  intro fuel
  refine freeNameLoop_eq_none ?_ fuel (by decide) (Or.inl rfl)
  intro suffix
  apply List.any_eq_true.2
  cases suffix with
  | none => exact ⟨_, List.mem_cons_self, by simp [spillName]⟩
  | some n =>
      refine ⟨_, List.mem_cons_of_mem _ (List.mem_map.2
        ⟨n.toNat, List.mem_range.2 n.toNat_lt, rfl⟩), ?_⟩
      simp [spillName]

end Candlestore
