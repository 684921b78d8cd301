import Mathlib.Data.List.Induction
import Candlestore.Lib.System
import Candlestore.ColdNames

/-!
# Cold storage over a sequence of spills

Spills of one symbol go to one directory, each into a file of its own: the name
is the range of its timestamps, with a counter behind it when that range was
spilled before.  This file follows a sequence of spills from a directory without
files and reads it back.

`Archive` describes the directory after the sequence: one file per spill, in
order, with its candles as rows and a name for its range.  From it the collision
loop ends as long as no range comes `2 ^ 32` times (`freeName_isSome_of_taken`), so the
sequence can be continued, and a query sees the rows of every file.
-/

namespace Candlestore

open Lib

variable {F : Type}

/-! ## Names and ranges -/

/-- A name belongs to one range. -/
theorem IsColdName.range_inj {s e s' e' : Int} {name : List Char}
    (h : IsColdName s e name) (h' : IsColdName s' e' name) : s = s' ∧ e = e' := by
  obtain ⟨suffix, rfl⟩ := isColdName_iff.1 h
  obtain ⟨suffix', heq⟩ := isColdName_iff.1 h'
  obtain ⟨hs, he, _⟩ := spillName_inj heq
  exact ⟨hs, he⟩

/-- The range a spill is named for. -/
def tsRange : List (Candle F) → Option (Int × Int)
  | [] => none
  | c :: cs => some (tsStart c cs, tsEnd c cs)

/-! ## The directory after a sequence of spills -/

/-- The files of the directory, one for each of the spills. -/
structure Archive (dir : List Char) (spills : List (List (Candle F)))
    (files : List (ColdFile F)) : Prop where
  rows : files.map fileRows = spills
  inDir : ∀ f ∈ files, f.dir = dir
  named : ∀ f ∈ files, ∃ s e, tsRange (fileRows f) = some (s, e) ∧ IsColdName s e f.name

theorem archive_nil (dir : List Char) : Archive dir [] ([] : List (ColdFile F)) where
  rows := rfl
  inDir := fun _ hf => absurd hf List.not_mem_nil
  named := fun _ hf => absurd hf List.not_mem_nil

namespace Archive

variable {dir : List Char} {spills : List (List (Candle F))} {files : List (ColdFile F)}

theorem advertised (arch : Archive dir spills files) : ∀ f ∈ files, Advertised f := by
  intro f hf
  obtain ⟨s, e, hrange, hname⟩ := arch.named f hf
  refine ⟨s, e, hname, ?_⟩
  cases hrows : fileRows f with
  | nil => exact fun _ hc => absurd hc List.not_mem_nil
  | cons c cs =>
      rw [hrows, tsRange, Option.some.injEq, Prod.mk.injEq] at hrange
      obtain ⟨rfl, rfl⟩ := hrange
      exact ts_mem_range c cs

theorem stored_eq (arch : Archive dir spills files) :
    stored files dir = spills.flatten := by
  have hall : files.filter (fun f => f.dir == dir) = files := by
    apply List.filter_eq_self.2
    intro f hf
    simpa using arch.inDir f hf
  rw [stored, hall, ← arch.rows, List.flatMap_def]

/-- As many files are named for a range as spills had it. -/
theorem count_range (arch : Archive dir spills files) (s e : Int) :
    (files.filter fun f => tsRange (fileRows f) == some (s, e)).length =
      spills.countP fun cs => tsRange cs == some (s, e) := by
  rw [← arch.rows, List.countP_map, List.countP_eq_length_filter]
  rfl

end Archive

section Spills

variable {uni : Char → Bool} {symbol : Symbol} {others : List (ColdFile F)}

/-- The rest of `data_dir` holds no file of the symbol's directory. -/
def Elsewhere (uni : Char → Bool) (symbol : Symbol) (others : List (ColdFile F)) :
    Prop :=
  ∀ f ∈ others, f.dir ≠ escapeSymbol uni symbol

/-- A spill that does not fail. -/
def spillStep (uni : Char → Bool) (symbol : Symbol) (fs : List (ColdFile F))
    (candles : List (Candle F)) : Option (List (ColdFile F)) := do
  let (fs', result) ← spill uni fs symbol candles .ok
  match result with
  | .ok () => return fs'
  | .error _ => none

/-- A name of the range is taken only by files of spills with that range. -/
theorem Archive.name_mem {spills : List (List (Candle F))} {files : List (ColdFile F)}
    (arch : Archive (escapeSymbol uni symbol) spills files)
    (hothers : Elsewhere uni symbol others) {s e : Int} {name : List Char}
    (hname : IsColdName s e name)
    (htaken : pathExists (others ++ files) (escapeSymbol uni symbol) name = true) :
    name ∈ (files.filter fun f => tsRange (fileRows f) == some (s, e)).map
      ColdFile.name := by
  obtain ⟨f, hf, hpath⟩ := List.any_eq_true.1 htaken
  simp only [Bool.and_eq_true, beq_iff_eq] at hpath
  rcases List.mem_append.1 hf with hf | hf
  · exact absurd hpath.1 (hothers f hf)
  · obtain ⟨s', e', hrange, hcold⟩ := arch.named f hf
    rw [hpath.2] at hcold
    obtain ⟨rfl, rfl⟩ := hname.range_inj hcold
    exact List.mem_map.2 ⟨f, List.mem_filter.2 ⟨hf, by simpa using hrange⟩, hpath.2⟩

/-- A spill of a range that came fewer than `2 ^ 32` times adds one
file under a free name. -/
theorem Archive.spill {spills : List (List (Candle F))} {files : List (ColdFile F)}
    {candles : List (Candle F)} (arch : Archive (escapeSymbol uni symbol) spills files)
    (hothers : Elsewhere uni symbol others) (hne : candles ≠ [])
    (hcount : (spills.countP fun cs => tsRange cs == tsRange candles) < 2 ^ 32) :
    ∃ f, spillStep uni symbol (others ++ files) candles = some (others ++ files ++ [f]) ∧
      pathExists (others ++ files) f.dir f.name = false ∧ f.body = candleTable candles ∧
      Archive (escapeSymbol uni symbol) (spills ++ [candles]) (files ++ [f]) := by
  cases candles with
  | nil => exact absurd rfl hne
  | cons c cs =>
      have hsome : (freeName (others ++ files) (escapeSymbol uni symbol) (tsStart c cs)
          (tsEnd c cs)).isSome = true := by
        rw [tsRange, ← arch.count_range, ← List.length_map ColdFile.name] at hcount
        refine freeName_isSome_of_taken hcount.le fun suffix htaken => ?_
        exact arch.name_mem hothers (isColdName_iff.2 ⟨suffix, rfl⟩) htaken
      obtain ⟨name, hname⟩ := Option.isSome_iff_exists.1 hsome
      obtain ⟨hcold, hfree⟩ := freeName_spec _ _ _ _ name hname
      refine ⟨⟨escapeSymbol uni symbol, name, candleTable (c :: cs)⟩, ?_, hfree, rfl, ?_⟩
      · simp only [spillStep, Candlestore.spill, hname, Option.bind_eq_bind,
          Option.bind_some, Option.pure_def, writeTable_createFile _ _ name _ hfree]
      · refine ⟨?_, ?_, ?_⟩
        · simp [arch.rows, fileRows]
        · intro f hf
          rcases List.mem_append.1 hf with hf | hf
          · exact arch.inDir f hf
          · rw [List.mem_singleton.1 hf]
        · intro f hf
          rcases List.mem_append.1 hf with hf | hf
          · exact arch.named f hf
          · rw [List.mem_singleton.1 hf]
            exact ⟨_, _, by simp [fileRows, tsRange], hcold⟩

/-- The spills of a sequence are not empty and no range comes `2 ^ 32` times. -/
structure Spillable (spills : List (List (Candle F))) : Prop where
  nonempty : ∀ candles ∈ spills, candles ≠ []
  repeats : ∀ range, (spills.countP fun candles => tsRange candles == some range) <
    2 ^ 32

theorem Spillable.before {before spills : List (List (Candle F))} (h : Spillable spills)
    (hbefore : before <+: spills) : Spillable before where
  nonempty := fun candles hc => h.nonempty candles (hbefore.subset hc)
  repeats := fun range => Nat.lt_of_le_of_lt (hbefore.sublist.countP_le)
    (h.repeats range)

/-- The next spill of a sequence that goes on. -/
theorem Archive.next {before : List (List (Candle F))} {candles : List (Candle F)}
    {files : List (ColdFile F)} (arch : Archive (escapeSymbol uni symbol) before files)
    (hothers : Elsewhere uni symbol others) (h : Spillable (before ++ [candles])) :
    ∃ f, spillStep uni symbol (others ++ files) candles = some (others ++ files ++ [f]) ∧
      pathExists (others ++ files) f.dir f.name = false ∧ f.body = candleTable candles ∧
      Archive (escapeSymbol uni symbol) (before ++ [candles]) (files ++ [f]) := by
  have hne : candles ≠ [] := h.nonempty candles (by simp)
  apply arch.spill hothers hne
  cases candles with
  | nil => exact absurd rfl hne
  | cons c cs =>
      have hbefore := h.before (List.prefix_append before [c :: cs])
      exact hbefore.repeats _

/-- The whole sequence can be spilled, and leaves its archive behind. -/
theorem exists_archive {spills : List (List (Candle F))} (h : Spillable spills)
    (hothers : Elsewhere uni symbol others) :
    ∃ files, exec (spillStep uni symbol) others spills = some (others ++ files) ∧
      Archive (escapeSymbol uni symbol) spills files := by
  induction spills using List.reverseRecOn with
  | nil => exact ⟨[], by rw [List.append_nil]; rfl, archive_nil _⟩
  | append_singleton before candles ih =>
      obtain ⟨files, hexec, arch⟩ := ih (h.before (List.prefix_append _ _))
      obtain ⟨f, hstep, _, _, harch⟩ := arch.next hothers h
      refine ⟨files ++ [f], ?_, harch⟩
      rw [← List.append_assoc]
      exact exec_append_eq_some.2 ⟨_, hexec, exec_cons_eq_some.2 ⟨_, hstep, rfl⟩⟩

/-- A spill leaves the files before it as they are. -/
theorem spillStep_extends {fs fs' : List (ColdFile F)} {candles : List (Candle F)}
    (h : spillStep uni symbol fs candles = some fs') : fs <+: fs' := by
  rw [spillStep, Option.bind_eq_bind, Option.bind_eq_some_iff] at h
  obtain ⟨⟨fs₁, result⟩, hspill, hresult⟩ := h
  cases result with
  | error err => cases hresult
  | ok u =>
      obtain rfl := Option.some.inj hresult
      by_cases hne : candles = []
      · subst hne
        rw [spill, Option.some.injEq, Prod.mk.injEq] at hspill
        exact hspill.1 ▸ List.prefix_refl fs
      · rcases spill_cases _ _ _ _ _ _ _ hne hspill with ⟨_, _, name, _, _, hadd⟩ |
          ⟨err, hr, _⟩
        · rw [hadd]
          exact List.prefix_append _ _
        · cases hr

theorem exec_spillStep_extends {fs fs' : List (ColdFile F)}
    {spills : List (List (Candle F))}
    (h : exec (spillStep uni symbol) fs spills = some fs') : fs <+: fs' :=
  exec_invariant (fun _ _ _ hpast hstep => hpast.trans (spillStep_extends hstep)) h
    (List.prefix_refl fs)

/-- A query reads nothing outside the symbol's directory. -/
theorem queryCold_elsewhere (hothers : Elsewhere uni symbol others) (o : OsOrder F)
    (files : List (ColdFile F)) (fromTs toTs : Int) :
    queryCold uni o (others ++ files) symbol fromTs toTs =
      queryCold uni o files symbol fromTs toTs := by
  have hnone : others.filter (fun f => f.dir == escapeSymbol uni symbol) = [] := by
    apply List.filter_eq_nil_iff.2
    intro f hf
    simpa using hothers f hf
  simp only [queryCold, List.filter_append, hnone, List.nil_append]

/-- Any sequence of non-empty spills of one symbol into a directory without files,
in which no range comes `2 ^ 32` times, goes through.  Each spill adds one file
under a name that was free and leaves the files before it as they are.  Afterwards,
whatever order the directory is listed in and however ties are sorted, a query is
strictly increasing, has the spilled timestamps of its window and no others, and
returns spilled candles only. -/
theorem cold_round_trip {spills : List (List (Candle F))} (h : Spillable spills)
    (hothers : Elsewhere uni symbol others) :
    ∃ fs, exec (spillStep uni symbol) others spills = some fs ∧
      (∀ before candles, before ++ [candles] <+: spills →
        ∃ earlier f, exec (spillStep uni symbol) others before = some earlier ∧
          spillStep uni symbol earlier candles = some (earlier ++ [f]) ∧
          pathExists earlier f.dir f.name = false ∧ f.body = candleTable candles ∧
          earlier ++ [f] <+: fs) ∧
      ∀ (o : OsOrder F) (fromTs toTs : Int),
        StrictBy Candle.ts (queryCold uni o fs symbol fromTs toTs) ∧
        (∀ t, t ∈ (queryCold uni o fs symbol fromTs toTs).map Candle.ts ↔
          t ∈ spills.flatten.map Candle.ts ∧ fromTs ≤ t ∧ t ≤ toTs) ∧
        ∀ c ∈ queryCold uni o fs symbol fromTs toTs, c ∈ spills.flatten := by
  obtain ⟨files, hexec, arch⟩ := exists_archive h hothers
  refine ⟨others ++ files, hexec, ?_, ?_⟩
  · rintro before candles ⟨after, rfl⟩
    have hnext : Spillable (before ++ [candles]) := h.before (List.prefix_append _ _)
    obtain ⟨old, hold, harch⟩ :=
      exists_archive (hnext.before (List.prefix_append _ _)) hothers
    obtain ⟨f, hstep, hfree, hbody, _⟩ := harch.next hothers hnext
    refine ⟨others ++ old, f, hold, hstep, hfree, hbody, ?_⟩
    have hthere : exec (spillStep uni symbol) others (before ++ [candles]) =
        some (others ++ old ++ [f]) :=
      exec_append_eq_some.2 ⟨_, hold, exec_cons_eq_some.2 ⟨_, hstep, rfl⟩⟩
    -- the rest of the sequence runs on from there and only adds files
    rw [exec_append_eq_some] at hexec
    obtain ⟨t, ht, hrest⟩ := hexec
    obtain rfl := Option.some.inj (hthere.symm.trans ht)
    exact exec_spillStep_extends hrest
  · intro o fromTs toTs
    rw [queryCold_elsewhere hothers]
    have hmem := mem_of_mem_queryCold uni o files symbol fromTs toTs
    rw [arch.stored_eq] at hmem
    refine ⟨queryCold_strict uni o files symbol fromTs toTs, ?_,
      fun c hc => (hmem c hc).1⟩
    intro t
    simp only [List.mem_map]
    constructor
    · rintro ⟨c, hc, rfl⟩
      obtain ⟨hspilled, hwindow⟩ := hmem c hc
      exact ⟨⟨c, hspilled, rfl⟩, hwindow⟩
    · rintro ⟨⟨c, hc, rfl⟩, hfrom, hto⟩
      rw [← arch.stored_eq] at hc
      exact exists_ts_queryCold uni o files symbol fromTs toTs arch.advertised c
        hc hfrom hto

end Spills

/-- Two spills of one range, unsorted and with different prices, and one within it. -/
theorem cold_round_trip_same_range :
    let uni : Char → Bool := fun _ => false
    let spills : List (List (Candle ℚ)) :=
      [[flatCandle 5 1, flatCandle 1 1],
        [flatCandle 1 2, flatCandle 5 2, flatCandle 1 3], [flatCandle 3 1]]
    Spillable spills ∧ ∃ fs, exec (spillStep uni ['A']) [] spills = some fs ∧
      ∀ (o : OsOrder ℚ) (t : Int), t ∈ (queryCold uni o fs ['A'] 2 9).map Candle.ts ↔
        t = 3 ∨ t = 5 := by
  intro uni spills
  have hspillable : Spillable spills := by
    refine ⟨by decide, ?_⟩
    intro range
    exact Nat.lt_of_le_of_lt List.countP_le_length (by decide)
  have hothers : Elsewhere uni ['A'] ([] : List (ColdFile ℚ)) :=
    fun _ hf => absurd hf List.not_mem_nil
  obtain ⟨fs, hexec, _, hquery⟩ := cold_round_trip hspillable hothers
  refine ⟨hspillable, fs, hexec, ?_⟩
  intro o t
  have hts : spills.flatten.map Candle.ts = [5, 1, 1, 5, 1, 3] := rfl
  rw [(hquery o 2 9).2.1 t, hts]
  simp only [List.mem_cons, List.not_mem_nil, or_false]
  omega

end Candlestore
