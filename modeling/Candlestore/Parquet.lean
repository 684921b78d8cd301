import Mathlib.Data.List.Perm.Basic
import Candlestore.Candle
import Candlestore.Lib.KeyedList
import Candlestore.Lib.Text

/-!
# Cold storage

Evicted rings are written to `{data_dir}/{escaped_symbol}/{start}_{end}.parquet`
and read back by `queryCold`.  The content of `data_dir` is a list of files, a
file being the directory it lies in, its name and its body.  A body is either a
table with its schema metadata, which Parquet is assumed to read back as it was
written, or the truncated remains of a write that did not finish.

The order in which `read_dir` lists a directory and the order in which
`sort_unstable_by_key` leaves equal keys are not specified; `OsOrder` stands
for any choice of the two.
-/

namespace Candlestore

open Lib

/-- Errors of the spill and read paths. -/
inductive SpillError where
  | io
  | arrow
  | parquet
  | incompatibleVersion (found maxSupported : Nat)
  deriving DecidableEq, Repr

/-! ## Schema metadata -/

/-- `SCHEMA_VERSION`, which every file of this build carries. -/
def schemaVersion : Nat := 1

/-- `SCHEMA_BRAND_VALUE`. -/
def schemaBrandValue : List Char :=
  ['c', 'a', 'n', 'd', 'l', 'e', 's', 't', 'o', 'r', 'e']

/-- Decide from a file's metadata whether it can be read. -/
def checkSchemaCompat (brand : Option (List Char)) (version : Option Nat) :
    Except SpillError Unit :=
  match brand, version with
  | none, none => .ok ()
  | some b, some v =>
      if b = schemaBrandValue then
        if v ≤ schemaVersion then .ok ()
        else .error (.incompatibleVersion v schemaVersion)
      else .error (.incompatibleVersion v schemaVersion)
  | _, v => .error (.incompatibleVersion (v.getD 0) schemaVersion)

/-- Body of a cold file. -/
inductive FileBody (F : Type) where
  | truncated
  | table (brand : Option (List Char)) (version : Option Nat) (rows : List (Candle F))
  deriving DecidableEq, Repr

/-- A file below `data_dir`. -/
structure ColdFile (F : Type) where
  dir : List Char
  name : List Char
  body : FileBody F
  deriving DecidableEq, Repr

variable {F : Type}

/-- The rows of a file, if it is whole and its schema can be read. -/
def readFile (body : FileBody F) : Except SpillError (List (Candle F)) :=
  match body with
  | .truncated => .error .parquet
  | .table brand version rows => do
      checkSchemaCompat brand version
      return rows

/-- The table `spill` writes: current brand and version, the candles as rows. -/
def candleTable (candles : List (Candle F)) : FileBody F :=
  .table (some schemaBrandValue) (some schemaVersion) candles

@[simp] theorem readFile_candleTable (candles : List (Candle F)) :
    readFile (candleTable candles) = .ok candles := by
  simp [readFile, candleTable, checkSchemaCompat]

/-! ## Paths -/

/-- `char::is_alphanumeric`.  Beyond ASCII the answer is read off the Unicode
tables `uni`. -/
def isAlphanumeric (uni : Char → Bool) (c : Char) : Bool :=
  if c.toNat < 128 then c.isAlphanum else uni c

/-- "BTC/USDT:1m" becomes "BTC_USDT_1m". -/
def escapeSymbol (uni : Char → Bool) (symbol : Symbol) : List Char :=
  symbol.map fun c => if isAlphanumeric uni c || c == '-' then c else '_'

/-- The extension the directory scan looks for. -/
def parquetExt : List Char := ['p', 'a', 'r', 'q', 'u', 'e', 't']

/-- `{ts_start}_{ts_end}.parquet` -/
def coldFileName (tsStart tsEnd : Int) : List Char :=
  (showInt tsStart ++ '_' :: showInt tsEnd) ++ '.' :: parquetExt

/-- `{ts_start}_{ts_end}-{n}.parquet`, written when shorter names are taken. -/
def suffixedFileName (tsStart tsEnd : Int) (n : Nat) : List Char :=
  (showInt tsStart ++ '_' :: (showInt tsEnd ++ '-' :: showNat n)) ++ '.' :: parquetExt

/-- `Path::file_stem`: everything before the last dot, unless that is empty. -/
def fileStem (name : List Char) : List Char :=
  match rsplitOnce '.' name with
  | none => name
  | some ([], _) => name
  | some (before, _) => before

/-- `Path::extension`: everything after the last dot, if a stem precedes it. -/
def fileExtension (name : List Char) : Option (List Char) :=
  match rsplitOnce '.' name with
  | none => none
  | some ([], _) => none
  | some (_, after) => some after

/-- `parse::<i64>`. -/
def parseI64 (cs : List Char) : Option Int := parseSigned (-2 ^ 63) (2 ^ 63 - 1) cs

/-- `parse::<u32>`. -/
def parseU32 (cs : List Char) : Option Nat := parseUnsigned (2 ^ 32 - 1) cs

/-- Parse the timestamp range a cold file name advertises. -/
def parseTsRange (name : List Char) : Option (Int × Int) := do
  let (a, b) ← splitOnce '_' (fileStem name)
  let tsEnd ← (parseI64 b).orElse fun _ => do
    let (base, n) ← rsplitOnce '-' b
    let _ ← parseU32 n
    parseI64 base
  let tsStart ← parseI64 a
  return (tsStart, tsEnd)

/-! ## Spilling -/

/-- `min` and `max` of the timestamps, folded from the first candle. -/
def tsStart (c : Candle F) (cs : List (Candle F)) : Int :=
  cs.foldl (fun m x => min m x.ts) c.ts

/-- The last timestamp of a spill. -/
def tsEnd (c : Candle F) (cs : List (Candle F)) : Int :=
  cs.foldl (fun m x => max m x.ts) c.ts

/-- `path.exists()`. -/
def pathExists (fs : List (ColdFile F)) (dir name : List Char) : Bool :=
  fs.any fun f => f.dir == dir && f.name == name

/-- The collision loop: try `-1`, `-2`, … until the name is free.  The counter
is a `u32`; it wraps here, and an overflow-checked build panics instead.  As
long as it has not wrapped every name tried is a different existing file, so
one step more than there are files decides whether the loop ends at all. -/
def freeNameLoop (fs : List (ColdFile F)) (dir : List Char) (s e : Int) :
    Nat → Nat → List Char → Option (List Char)
  | 0, _, _ => none
  | fuel + 1, n, name =>
      if pathExists fs dir name then
        freeNameLoop fs dir s e fuel ((n + 1) % 2 ^ 32) (suffixedFileName s e n)
      else some name

/-- The collision loop: the plain name, or the first suffix that is free.  There is none
if the range has used up all of them. -/
def freeName (fs : List (ColdFile F)) (dir : List Char) (s e : Int) :
    Option (List Char) :=
  freeNameLoop fs dir s e (fs.length + 1) 1 (coldFileName s e)

/-- `File::create` of a fresh name: a file that cannot be read yet. -/
def createFile (fs : List (ColdFile F)) (dir name : List Char) : List (ColdFile F) :=
  fs ++ [⟨dir, name, .truncated⟩]

/-- Complete the table of a created file. -/
def writeTable (fs : List (ColdFile F)) (dir name : List Char) (rows : List (Candle F)) :
    List (ColdFile F) :=
  fs.map fun f => if f.dir = dir ∧ f.name = name then
    { f with body := candleTable rows } else f

/-- What the file system does during one spill: everything succeeds, an error
comes before the file is created, or one comes after and leaves it truncated. -/
inductive SpillIo where
  | ok
  | failBefore (e : SpillError)
  | failAfter (e : SpillError)
  deriving DecidableEq, Repr

/-- `spill(data_dir, symbol, candles)`.  `none` is the collision loop that
never ends. -/
def spill (uni : Char → Bool) (fs : List (ColdFile F)) (symbol : Symbol)
    (candles : List (Candle F)) (io : SpillIo) :
    Option (List (ColdFile F) × Except SpillError Unit) :=
  match candles with
  | [] => some (fs, .ok ())
  | c :: cs =>
      match io with
      | .failBefore err => some (fs, .error err)
      | .ok => do
          let dir := escapeSymbol uni symbol
          let name ← freeName fs dir (tsStart c cs) (tsEnd c cs)
          return (writeTable (createFile fs dir name) dir name candles, .ok ())
      | .failAfter err => do
          let dir := escapeSymbol uni symbol
          let name ← freeName fs dir (tsStart c cs) (tsEnd c cs)
          return (createFile fs dir name, .error err)

/-! ## Querying -/

/-- An order of directory listings and a way to break ties when sorting. -/
structure OsOrder (F : Type) where
  readDir : List (ColdFile F) → List (ColdFile F)
  readDir_perm : ∀ l, (readDir l).Perm l
  sortUnstable : List (Candle F) → List (Candle F)
  sort_perm : ∀ l, (sortUnstable l).Perm l
  sort_sorted : ∀ l, SortedBy Candle.ts (sortUnstable l)

/-- The order of a directory kept as listed and ties left as collected. -/
def stableOrder : OsOrder F where
  readDir l := l
  readDir_perm l := List.Perm.refl l
  sortUnstable l := l.insertionSort fun a b => a.ts ≤ b.ts
  sort_perm l := List.perm_insertionSort _ l
  sort_sorted l := by
    have htotal : Std.Total (fun a b : Candle F => a.ts ≤ b.ts) :=
      ⟨fun a b => le_total a.ts b.ts⟩
    have htrans : IsTrans (Candle F) (fun a b => a.ts ≤ b.ts) :=
      ⟨fun a b c hab hbc => le_trans hab hbc⟩
    exact List.pairwise_insertionSort (fun a b : Candle F => a.ts ≤ b.ts) l

/-- The rows a file yields; an unreadable file is skipped with a warning. -/
def fileRows (f : ColdFile F) : List (Candle F) :=
  match readFile f.body with
  | .ok candles => candles
  | .error _ => []

/-- The advertised range does not overlap the window. -/
def isPruned (name : List Char) (fromTs toTs : Int) : Bool :=
  match parseTsRange name with
  | some (fileStart, fileEnd) => decide (fileEnd < fromTs) || decide (fileStart > toTs)
  | none => false

/-- The filter of a query, both ends included. -/
def inWindow (fromTs toTs : Int) (c : Candle F) : Bool :=
  decide (c.ts ≥ fromTs) && decide (c.ts ≤ toTs)

/-- The rows of one file that `query_cold` collects. -/
def coldRows (f : ColdFile F) (fromTs toTs : Int) : List (Candle F) :=
  if fileExtension f.name ≠ some parquetExt then []
  else if isPruned f.name fromTs toTs then []
  else (fileRows f).filter (inWindow fromTs toTs)

/-- Read candles from all cold files of a symbol that overlap the window. -/
def queryCold (uni : Char → Bool) (o : OsOrder F) (fs : List (ColdFile F))
    (symbol : Symbol) (fromTs toTs : Int) : List (Candle F) :=
  let entries := o.readDir (fs.filter fun f => f.dir == escapeSymbol uni symbol)
  let out := entries.flatMap fun f => coldRows f fromTs toTs
  dedupBy Candle.ts (o.sortUnstable out)

/-! ## File names -/

/-- The `i64` range. -/
def InI64 (z : Int) : Prop := -2 ^ 63 ≤ z ∧ z ≤ 2 ^ 63 - 1

instance (z : Int) : Decidable (InI64 z) :=
  inferInstanceAs (Decidable (-2 ^ 63 ≤ z ∧ z ≤ 2 ^ 63 - 1))

theorem parseI64_showInt (z : Int) :
    parseI64 (showInt z) = if InI64 z then some z else none :=
  parseSigned_showInt _ _ z (by decide) (by decide)

private theorem fileStem_append (base ext : List Char) (hbase : base ≠ [])
    (hext : '.' ∉ ext) : fileStem (base ++ '.' :: ext) = base := by
  rw [fileStem, rsplitOnce_append '.' base ext hext]
  cases base with
  | nil => exact absurd rfl hbase
  | cons x xs => rfl

private theorem fileExtension_append (base ext : List Char) (hbase : base ≠ [])
    (hext : '.' ∉ ext) : fileExtension (base ++ '.' :: ext) = some ext := by
  rw [fileExtension, rsplitOnce_append '.' base ext hext]
  cases base with
  | nil => exact absurd rfl hbase
  | cons x xs => rfl

theorem fileExtension_coldFileName (s e : Int) :
    fileExtension (coldFileName s e) = some parquetExt :=
  fileExtension_append _ _ (by simp) (by decide)

theorem fileExtension_suffixedFileName (s e : Int) (n : Nat) :
    fileExtension (suffixedFileName s e n) = some parquetExt :=
  fileExtension_append _ _ (by simp) (by decide)

/-- Stripping a suffix from a plain end leaves nothing that parses: the only
dash of a printed integer is its leading sign. -/
private theorem strip_showInt (z : Int) :
    ((rsplitOnce '-' (showInt z)).bind fun p =>
      (parseU32 p.2).bind fun _ => parseI64 p.1) = none := by
  have hdash : Char.isDigit '-' = false := by decide
  cases z with
  | ofNat n =>
      rw [showInt, rsplitOnce_eq_none '-' _ (not_mem_showNat n '-' hdash),
        Option.bind_none]
  | negSucc n =>
      have happ : showInt (Int.negSucc n) = [] ++ '-' :: showNat (n + 1) := rfl
      rw [happ, rsplitOnce_append '-' [] _ (not_mem_showNat (n + 1) '-' hdash),
        Option.bind_some]
      cases parseU32 (showNat (n + 1)) <;> rfl

theorem parseTsRange_coldFileName (s e : Int) :
    parseTsRange (coldFileName s e) = if InI64 s ∧ InI64 e then some (s, e)
      else none := by
  have hsplit : splitOnce '_' (showInt s ++ '_' :: showInt e) =
      some (showInt s, showInt e) :=
    splitOnce_append '_' _ _ (not_mem_showInt s '_' (by decide) (by decide))
  have hstrip := strip_showInt e
  rw [parseTsRange, coldFileName, fileStem_append _ _ (by simp) (by decide), hsplit]
  simp only [Option.bind_eq_bind, Option.bind_some, parseI64_showInt]
  by_cases he : InI64 e
  · by_cases hs : InI64 s
    · simp [he, hs]
    · simp [he, hs]
  · simp [he, hstrip]

theorem parseTsRange_suffixedFileName (s e : Int) (n : Nat) (hn : n < 2 ^ 32) :
    parseTsRange (suffixedFileName s e n) =
      if InI64 s ∧ InI64 e then some (s, e) else none := by
  have hsplit : splitOnce '_' (showInt s ++ '_' :: (showInt e ++ '-' :: showNat n)) =
      some (showInt s, showInt e ++ '-' :: showNat n) :=
    splitOnce_append '_' _ _ (not_mem_showInt s '_' (by decide) (by decide))
  have hstrip : rsplitOnce '-' (showInt e ++ '-' :: showNat n) =
      some (showInt e, showNat n) :=
    rsplitOnce_append '-' _ _ (not_mem_showNat n '-' (by decide))
  have hsuffix : parseU32 (showNat n) = some n := parseUnsigned_showNat _ n (by omega)
  have hdash : parseI64 (showInt e ++ '-' :: showNat n) = none :=
    parseSigned_dash _ _ e _
  rw [parseTsRange, suffixedFileName, fileStem_append _ _ (by simp) (by decide), hsplit]
  simp only [Option.bind_eq_bind, Option.bind_some, hdash, hstrip, hsuffix,
    parseI64_showInt]
  by_cases he : InI64 e
  · by_cases hs : InI64 s
    · simp [he, hs]
    · simp [he, hs]
  · simp [he]

/-- A name that `spill` gives to a file with the range `[s, e]`. -/
def IsColdName (s e : Int) (name : List Char) : Prop :=
  name = coldFileName s e ∨ ∃ n, n < 2 ^ 32 ∧ name = suffixedFileName s e n

theorem IsColdName.extension {s e : Int} {name : List Char} (h : IsColdName s e name) :
    fileExtension name = some parquetExt := by
  rcases h with rfl | ⟨n, _, rfl⟩
  · exact fileExtension_coldFileName s e
  · exact fileExtension_suffixedFileName s e n

/-- Pruning never sees a range other than the one that was encoded. -/
theorem IsColdName.parse {s e : Int} {name : List Char} (h : IsColdName s e name) :
    parseTsRange name = if InI64 s ∧ InI64 e then some (s, e) else none := by
  rcases h with rfl | ⟨n, hn, rfl⟩
  · exact parseTsRange_coldFileName s e
  · exact parseTsRange_suffixedFileName s e n hn

private theorem freeNameLoop_spec (fs : List (ColdFile F)) (dir : List Char) (s e : Int)
    (fuel : Nat) : ∀ n name found, n < 2 ^ 32 → IsColdName s e name →
      freeNameLoop fs dir s e fuel n name = some found →
      IsColdName s e found ∧ pathExists fs dir found = false := by
  induction fuel with
  | zero =>
      intro n name found _ _ h
      simp [freeNameLoop] at h
  | succ fuel ih =>
      intro n name found hn hname h
      rw [freeNameLoop] at h
      cases hex : pathExists fs dir name with
      | true =>
          rw [hex, if_pos rfl] at h
          exact ih _ _ found (Nat.mod_lt _ (by decide)) (Or.inr ⟨n, hn, rfl⟩) h
      | false =>
          simp only [hex, Bool.false_eq_true, if_false, Option.some.injEq] at h
          subst h
          exact ⟨hname, hex⟩

/-- The collision loop ends on a name that encodes the range and is not taken. -/
theorem freeName_spec (fs : List (ColdFile F)) (dir : List Char) (s e : Int)
    (name : List Char) (h : freeName fs dir s e = some name) :
    IsColdName s e name ∧ pathExists fs dir name = false :=
  freeNameLoop_spec fs dir s e _ 1 _ name (by decide) (Or.inl rfl) h

/-! ## What a directory stores -/

/-- All rows stored under one escaped symbol, file by file. -/
def stored (fs : List (ColdFile F)) (dir : List Char) : List (Candle F) :=
  (fs.filter fun f => f.dir == dir).flatMap fileRows

/-- The file name advertises a range that covers every row. -/
def Advertised (f : ColdFile F) : Prop :=
  ∃ s e, IsColdName s e f.name ∧ ∀ c ∈ fileRows f, s ≤ c.ts ∧ c.ts ≤ e

@[simp] theorem inWindow_iff (fromTs toTs : Int) (c : Candle F) :
    inWindow fromTs toTs c = true ↔ fromTs ≤ c.ts ∧ c.ts ≤ toTs := by
  simp [inWindow]

/-- Pruning by name drops no row of the window. -/
theorem coldRows_eq (f : ColdFile F) (fromTs toTs : Int) (h : Advertised f) :
    coldRows f fromTs toTs = (fileRows f).filter (inWindow fromTs toTs) := by
  obtain ⟨s, e, hname, hrows⟩ := h
  rw [coldRows, if_neg (not_not.2 hname.extension)]
  cases hp : isPruned f.name fromTs toTs with
  | false => rw [if_neg Bool.false_ne_true]
  | true =>
      rw [if_pos rfl]
      rw [isPruned, hname.parse] at hp
      symm
      rw [List.filter_eq_nil_iff]
      intro c hc
      have hcov := hrows c hc
      rw [inWindow_iff]
      by_cases hin : InI64 s ∧ InI64 e
      · simp only [if_pos hin, Bool.or_eq_true, decide_eq_true_eq] at hp
        omega
      · simp [hin] at hp

theorem mem_of_mem_coldRows (f : ColdFile F) (fromTs toTs : Int) (c : Candle F)
    (h : c ∈ coldRows f fromTs toTs) : c ∈ fileRows f ∧ fromTs ≤ c.ts ∧ c.ts ≤ toTs := by
  rw [coldRows] at h
  split at h
  · exact absurd h List.not_mem_nil
  · split at h
    · exact absurd h List.not_mem_nil
    · rwa [List.mem_filter, inWindow_iff] at h

section Query

variable (uni : Char → Bool) (o : OsOrder F) (fs : List (ColdFile F)) (symbol : Symbol)
  (fromTs toTs : Int)

theorem queryCold_strict : StrictBy Candle.ts (queryCold uni o fs symbol fromTs toTs) :=
  dedupBy_strict Candle.ts _ (o.sort_sorted _)

/-- Rows collected from the directory, before sorting. -/
private theorem mem_collected (c : Candle F) :
    c ∈ o.sortUnstable
      ((o.readDir (fs.filter fun f => f.dir == escapeSymbol uni symbol)).flatMap
        fun f => coldRows f fromTs toTs) ↔
      ∃ f ∈ fs, f.dir = escapeSymbol uni symbol ∧ c ∈ coldRows f fromTs toTs := by
  rw [(o.sort_perm _).mem_iff, List.mem_flatMap]
  constructor
  · rintro ⟨f, hf, hc⟩
    have hmem := List.mem_filter.1 ((o.readDir_perm _).mem_iff.1 hf)
    exact ⟨f, hmem.1, by simpa using hmem.2, hc⟩
  · rintro ⟨f, hf, hdir, hc⟩
    exact ⟨f, (o.readDir_perm _).mem_iff.2
      (List.mem_filter.2 ⟨hf, by simpa using hdir⟩), hc⟩

theorem mem_stored (dir : List Char) (c : Candle F) :
    c ∈ stored fs dir ↔ ∃ f ∈ fs, f.dir = dir ∧ c ∈ fileRows f := by
  simp only [stored, List.mem_flatMap, List.mem_filter, beq_iff_eq, and_assoc]

/-- A cold query returns stored rows of the symbol's directory, in the window. -/
theorem mem_of_mem_queryCold (c : Candle F)
    (h : c ∈ queryCold uni o fs symbol fromTs toTs) :
    c ∈ stored fs (escapeSymbol uni symbol) ∧ fromTs ≤ c.ts ∧ c.ts ≤ toTs := by
  have hc := (dedupBy_sublist Candle.ts _).subset h
  obtain ⟨f, hf, hdir, hrows⟩ := (mem_collected uni o fs symbol fromTs toTs c).1 hc
  obtain ⟨hmem, hwin⟩ := mem_of_mem_coldRows f fromTs toTs c hrows
  exact ⟨(mem_stored fs _ c).2 ⟨f, hf, hdir, hmem⟩, hwin⟩

/-- No stored timestamp of the window is missed. -/
theorem exists_ts_queryCold (hadv : ∀ f ∈ fs, Advertised f) (c : Candle F)
    (hc : c ∈ stored fs (escapeSymbol uni symbol)) (hfrom : fromTs ≤ c.ts)
    (hto : c.ts ≤ toTs) :
    ∃ y ∈ queryCold uni o fs symbol fromTs toTs, y.ts = c.ts := by
  obtain ⟨f, hf, hdir, hrows⟩ := (mem_stored fs _ c).1 hc
  apply exists_key_dedupBy Candle.ts
  rw [mem_collected]
  refine ⟨f, hf, hdir, ?_⟩
  rw [coldRows_eq f fromTs toTs (hadv f hf)]
  exact List.mem_filter.2 ⟨hrows, (inWindow_iff fromTs toTs c).2 ⟨hfrom, hto⟩⟩

end Query

/-! ## What a spill adds -/

private theorem foldl_min_le (cs : List (Candle F)) :
    ∀ m : Int, cs.foldl (fun m x => min m x.ts) m ≤ m ∧
      ∀ c ∈ cs, cs.foldl (fun m x => min m x.ts) m ≤ c.ts := by
  induction cs with
  | nil => intro m; exact ⟨le_refl m, fun c hc => absurd hc List.not_mem_nil⟩
  | cons x xs ih =>
      intro m
      obtain ⟨h₁, h₂⟩ := ih (min m x.ts)
      rw [List.foldl_cons]
      refine ⟨le_trans h₁ (min_le_left _ _), ?_⟩
      intro c hc
      rcases List.mem_cons.1 hc with rfl | hc
      · exact le_trans h₁ (min_le_right _ _)
      · exact h₂ c hc

private theorem le_foldl_max (cs : List (Candle F)) :
    ∀ m : Int, m ≤ cs.foldl (fun m x => max m x.ts) m ∧
      ∀ c ∈ cs, c.ts ≤ cs.foldl (fun m x => max m x.ts) m := by
  induction cs with
  | nil => intro m; exact ⟨le_refl m, fun c hc => absurd hc List.not_mem_nil⟩
  | cons x xs ih =>
      intro m
      obtain ⟨h₁, h₂⟩ := ih (max m x.ts)
      rw [List.foldl_cons]
      refine ⟨le_trans (le_max_left _ _) h₁, ?_⟩
      intro c hc
      rcases List.mem_cons.1 hc with rfl | hc
      · exact le_trans (le_max_right _ _) h₁
      · exact h₂ c hc

/-- The advertised range covers every candle of the spill. -/
theorem ts_mem_range (c : Candle F) (cs : List (Candle F)) :
    ∀ x ∈ c :: cs, tsStart c cs ≤ x.ts ∧ x.ts ≤ tsEnd c cs := by
  intro x hx
  obtain ⟨hmin, hmins⟩ := foldl_min_le cs c.ts
  obtain ⟨hmax, hmaxs⟩ := le_foldl_max cs c.ts
  rcases List.mem_cons.1 hx with rfl | hx
  · exact ⟨hmin, hmax⟩
  · exact ⟨hmins x hx, hmaxs x hx⟩

/-- Completing a freshly created file leaves every older file alone. -/
theorem writeTable_createFile (fs : List (ColdFile F)) (dir name : List Char)
    (rows : List (Candle F)) (hfree : pathExists fs dir name = false) :
    writeTable (createFile fs dir name) dir name rows =
      fs ++ [⟨dir, name, candleTable rows⟩] := by
  rw [writeTable, createFile, List.map_append, List.map_singleton, if_pos ⟨rfl, rfl⟩]
  congr 1
  conv_rhs => rw [← List.map_id fs]
  apply List.map_congr_left
  intro f hf
  rw [if_neg, id]
  rintro ⟨hdir, hname⟩
  have := List.any_eq_false.1 hfree f hf
  simp [hdir, hname] at this

theorem advertised_truncated (dir name : List Char) (s e : Int)
    (h : IsColdName s e name) : Advertised (⟨dir, name, .truncated⟩ : ColdFile F) :=
  ⟨s, e, h, fun _ hc => absurd hc List.not_mem_nil⟩

theorem advertised_candleTable (dir name : List Char) (c : Candle F)
    (cs : List (Candle F)) (h : IsColdName (tsStart c cs) (tsEnd c cs) name) :
    Advertised ⟨dir, name, candleTable (c :: cs)⟩ := by
  refine ⟨_, _, h, ?_⟩
  intro x hx
  rw [fileRows, readFile_candleTable] at hx
  exact ts_mem_range c cs x hx

/-- The files after a spill: one more file in the symbol's directory, with the
candles if the spill succeeded and without a readable row if it failed. -/
theorem spill_cases (uni : Char → Bool) (fs fs' : List (ColdFile F)) (symbol : Symbol)
    (candles : List (Candle F)) (io : SpillIo) (r : Except SpillError Unit)
    (hne : candles ≠ []) (h : spill uni fs symbol candles io = some (fs', r)) :
    (r = .ok () ∧ io = .ok ∧
      ∃ name, pathExists fs (escapeSymbol uni symbol) name = false ∧
        Advertised ⟨escapeSymbol uni symbol, name, candleTable candles⟩ ∧
        fs' = fs ++ [⟨escapeSymbol uni symbol, name, candleTable candles⟩]) ∨
      ∃ err, r = .error err ∧ (fs' = fs ∨
        ∃ name, Advertised (⟨escapeSymbol uni symbol, name, .truncated⟩ : ColdFile F) ∧
          fs' = fs ++ [⟨escapeSymbol uni symbol, name, .truncated⟩]) := by
  cases candles with
  | nil => exact absurd rfl hne
  | cons c cs =>
      cases io with
      | failBefore err =>
          simp only [spill, Option.some.injEq, Prod.mk.injEq] at h
          exact Or.inr ⟨err, h.2.symm, Or.inl h.1.symm⟩
      | ok =>
          simp only [spill, Option.bind_eq_bind, Option.bind_eq_some_iff,
            Option.pure_def,
            Option.some.injEq, Prod.mk.injEq] at h
          obtain ⟨name, hname, hfs, hr⟩ := h
          obtain ⟨hcold, hfree⟩ := freeName_spec fs _ _ _ name hname
          rw [writeTable_createFile fs _ name _ hfree] at hfs
          exact Or.inl ⟨hr.symm, rfl, name, hfree,
            advertised_candleTable _ name c cs hcold, hfs.symm⟩
      | failAfter err =>
          simp only [spill, Option.bind_eq_bind, Option.bind_eq_some_iff,
            Option.pure_def,
            Option.some.injEq, Prod.mk.injEq] at h
          obtain ⟨name, hname, hfs, hr⟩ := h
          obtain ⟨hcold, _⟩ := freeName_spec fs _ _ _ name hname
          exact Or.inr ⟨err, hr.symm,
            Or.inr ⟨name, advertised_truncated _ name _ _ hcold,
            hfs.symm⟩⟩

theorem stored_append (fs gs : List (ColdFile F)) (dir : List Char) :
    stored (fs ++ gs) dir = stored fs dir ++ stored gs dir := by
  simp [stored]

theorem stored_singleton (f : ColdFile F) (dir : List Char) :
    stored [f] dir = if f.dir = dir then fileRows f else [] := by
  by_cases h : f.dir = dir
  · simp [stored, h]
  · simp [stored, h]

end Candlestore
