/-
`ppt_to_pdf.py`: `convert_all`, and which originals it may delete.

The file system is what `resolve` and `glob` see of it, which a run does not change, and
two maps that it does: the files and the directories. LibreOffice, the permissions and the
search for the executable are the `Os` of a run. Of LibreOffice only this is assumed: exit
status `0` means that the PDF of the given source is in its place, where a link gives way to
it, and nothing is written anywhere else (`Os.Honest`).

A PDF is placed by the stem of its source alone. So the check before a deletion looks at
the right file only as long as no other source has the same place; over all the ways
LibreOffice may behave, that is the exact condition (`keeps_pdfs_iff`).
-/
import Mathlib.Data.Char
import Mathlib.Data.List.Infix
import Mathlib.Data.List.Lex
import Mathlib.Data.List.Sort
import Mathlib.Logic.Function.Basic

set_option autoImplicit false

namespace CourseLabs.PptToPdf

/-! ## Paths -/

/-- An absolute path, as the list of its components. -/
abbrev Path := List (List Char)

/-- `p.name` -/
def name (p : Path) : List Char :=
  p.getLast?.getD []

/-- `p.parent` -/
def parent (p : Path) : Path :=
  p.dropLast

/-- The place of the last dot of a name, if it is neither its first nor its last character. -/
def dot_index (name : List Char) : Option ℕ :=
  match name.reverse.idxOf? '.' with
  | none => none
  | some k => if 0 < name.length - 1 - k ∧ 0 < k then some (name.length - 1 - k) else none

/-- `p.suffix`: the last dot of the name and what follows it, if the dot is neither the first nor
the last character. -/
def suffix (p : Path) : List Char :=
  match dot_index (name p) with
  | some i => (name p).drop i
  | none => []

/-- `p.stem`: the name without its suffix. Two sources that differ in their suffixes only have one
stem. -/
def stem (p : Path) : List Char :=
  match dot_index (name p) with
  | some i => (name p).take i
  | none => name p

/-- The suffixes of presentations, in lower case. -/
def SUPPORTED_EXTENSIONS : List (List Char) :=
  [['.', 'p', 'p', 't', 'x'], ['.', 'p', 'p', 't'], ['.', 'p', 'p', 's', 'x'], ['.', 'o', 'd', 'p']]

/-- `p.suffix.lower() in SUPPORTED_EXTENSIONS`, so that capitals in a suffix make no difference. -/
def supported (p : Path) : Bool :=
  (suffix p).map Char.toLower ∈ SUPPORTED_EXTENSIONS

/-- `target_dir / f"{src.stem}.pdf"`: where the PDF of a source is looked for, whoever has put a
file there. -/
def pdf_in (target_dir src : Path) : Path :=
  target_dir ++ [stem src ++ ['.', 'p', 'd', 'f']]

/-! ## The file system -/

/-- A file: its size and, if it is a PDF, the presentation it was made from. -/
structure File where
  size : ℕ
  pdf_of : Option Path

/-- The files and the directories there are. A path is at most one of the two. -/
structure Disk where
  file : Path → Option File
  dir : Path → Bool

/-- The file system a run starts from. `resolve` follows the symbolic links, `glob` lists what
is below a directory, recursively or not. -/
structure Tree extends Disk where
  resolve : Path → Path
  glob : Path → Bool → List Path
  resolve_resolve : ∀ p, resolve (resolve p) = resolve p
  parent_dir : ∀ p, (file p).isSome → dir (parent p) = true

/-- How `subprocess.run` ends: with a return code, by its timeout, or because the command could not
be run. -/
inductive Outcome where
  | exited (returncode : ℤ)
  | timeout
  | failed
  deriving DecidableEq

/-- What a run depends on besides: the executable that is found, the permissions, and what
LibreOffice does for a target directory and a source. -/
structure Os where
  lo_bin : Option Path
  mkdir : Path → Bool
  soffice : Path → Path → Path → Disk → Outcome × Disk
  unlink : Path → Bool

/-- Exit status `0` means the PDF of the source is there; only its place is written. -/
structure Os.Honest (os : Os) : Prop where
  pdf : ∀ bin target_dir src disk, (os.soffice bin target_dir src disk).1 = .exited 0 →
    ∃ f, (os.soffice bin target_dir src disk).2.file (pdf_in target_dir src) = some f
      ∧ f.pdf_of = some src
  frame : ∀ bin target_dir src disk p, p ≠ pdf_in target_dir src →
    (os.soffice bin target_dir src disk).2.file p = disk.file p

/-- `p.is_file()`, which looks through symbolic links, as `resolve` does. -/
def is_file (tree : Tree) (disk : Disk) (p : Path) : Bool :=
  (disk.file (tree.resolve p)).isSome

/-- `p.is_dir()` -/
def is_dir (tree : Tree) (disk : Disk) (p : Path) : Bool :=
  disk.dir (tree.resolve p)

/-- `p.mkdir(parents=True, exist_ok=True)`; `none` is an exception. The parents are made too, and
no file may stand in their place. -/
def mkdir (os : Os) (p : Path) (disk : Disk) : Option Disk :=
  if disk.dir p then
    some disk
  else if os.mkdir p ∧ p.inits.all fun q => (disk.file q).isNone then
    some { disk with dir := fun q => disk.dir q || q.isPrefixOf p }
  else
    none

/-! ## The program -/

/-- The disk during a run, and the sources deleted so far. -/
structure World where
  disk : Disk
  removed : List Path

/-- `src.unlink()`: the file is gone, and the run remembers that it has removed it. -/
def World.unlink (w : World) (src : Path) : World :=
  { disk := { w.disk with file := Function.update w.disk.file src none }
    removed := w.removed ++ [src] }

/-- What is unlinked is gone. -/
theorem World.unlink_file_self (w : World) (src : Path) : (w.unlink src).disk.file src = none :=
  Function.update_self ..

/-- Unlinking one path leaves the others alone. -/
theorem World.unlink_file_of_ne (w : World) {src p : Path} (h : p ≠ src) :
    (w.unlink src).disk.file p = w.disk.file p :=
  Function.update_of_ne h ..

/-- `target_dir` of a source. An empty `output_dir` is none, and then the PDF belongs beside its
source. -/
def target_dir (tree : Tree) (output_dir : Option Path) (src : Path) : Path :=
  match output_dir with
  | some d => tree.resolve d
  | none => parent src

/-- Where the script looks for the PDF of a source: the name with another suffix, in the given
directory or beside the source. -/
def target_pdf (tree : Tree) (output_dir : Option Path) (src : Path) : Path :=
  pdf_in (target_dir tree output_dir src) src

/-- The check of the PDF, and the deletion: a file at the place of the PDF that is not empty is
taken for it. -/
def verify (os : Os) (remove_original : Bool) (src pdf : Path) (w : World) : Bool × World :=
  match w.disk.file pdf with
  | some f =>
    if f.size > 0 then
      if remove_original ∧ os.unlink src then
        (true, w.unlink src)
      else
        (true, w)
    else
      (false, w)
  | none => (false, w)

/-- The returned value, or `none` for the exception `mkdir` may raise. -/
def convert_single_file (tree : Tree) (os : Os) (file_path : Path) (output_dir : Option Path)
    (remove_original : Bool) (libreoffice_bin : Option Path) (w : World) : Option Bool × World :=
  let src := tree.resolve file_path
  if ¬ is_file tree w.disk src then
    (some false, w)
  else if ¬ supported src then
    (some false, w)
  else
    match libreoffice_bin.or os.lo_bin with
    | none => (some false, w)
    | some lo_bin =>
      match mkdir os (target_dir tree output_dir src) w.disk with
      | none => (none, w)
      | some disk =>
        let result := os.soffice lo_bin (target_dir tree output_dir src) src disk
        if result.1 = .exited 0 then
          let verified := verify os remove_original src (target_pdf tree output_dir src)
            { w with disk := result.2 }
          (some verified.1, verified.2)
        else
          (some false, { w with disk := result.2 })

/-- `files_to_convert` and `seen`, with one more item, if it is a presentation and not yet in the
list. -/
def add_file (tree : Tree) (disk : Disk) (s : List Path × List Path) (item : Path) :
    List Path × List Path :=
  if is_file tree disk item ∧ supported item ∧ item ∉ s.2 then (s.1 ++ [item], item :: s.2) else s

/-- The files a path stands for: itself, or what is below it. -/
def items (tree : Tree) (disk : Disk) (recursive : Bool) (p : Path) : List Path :=
  if is_file tree disk p then [p] else if is_dir tree disk p then tree.glob p recursive else []

/-- The files a run works on, without repetitions and sorted. -/
def collect_presentation_files (tree : Tree) (disk : Disk) (paths : List Path)
    (recursive : Bool) : List Path :=
  let s := paths.foldl
    (fun s p_str => (items tree disk recursive (tree.resolve p_str)).foldl (add_file tree disk) s)
    ([], [])
  s.1.mergeSort fun p q => decide (p ≤ q)

/-- The loop of `convert_all`: `succeeded` and `failed`, or `none` for an exception. -/
def convert_files (tree : Tree) (os : Os) (output_dir : Option Path) (remove_original : Bool)
    (lo_bin : Path) : List Path → ℕ × ℕ → World → Option (ℕ × ℕ) × World
  | [], s, w => (some s, w)
  | f :: files, s, w =>
    match convert_single_file tree os f output_dir remove_original (some lo_bin) w with
    | (none, w) => (none, w)
    | (some ok, w) =>
      convert_files tree os output_dir remove_original lo_bin files
        (if ok then (s.1 + 1, s.2) else (s.1, s.2 + 1)) w

/-- The summary: how many files there were, and how many calls have succeeded and failed. -/
structure Summary where
  total : ℕ
  succeeded : ℕ
  failed : ℕ

/-- `convert_all`; an exception, for want of LibreOffice or of a directory, is `none`. -/
def convert_all (tree : Tree) (os : Os) (paths : List Path) (output_dir : Option Path)
    (remove_original recursive : Bool) : Option Summary × World :=
  let w : World := { disk := tree.toDisk, removed := [] }
  match os.lo_bin with
  | none => (none, w)
  | some lo_bin =>
    let files := collect_presentation_files tree w.disk paths recursive
    if files = [] then
      (some { total := 0, succeeded := 0, failed := 0 }, w)
    else
      match convert_files tree os output_dir remove_original lo_bin files (0, 0) w with
      | (none, w) => (none, w)
      | (some s, w) => (some { total := files.length, succeeded := s.1, failed := s.2 }, w)

/-! ## The collected files -/

section Collect

variable {tree : Tree} {disk : Disk} {paths : List Path} {recursive : Bool} {f : Path}

/-- What is collected is what was collected before and the supported files of the list; the set
that keeps a file from coming twice has the same members as the list. -/
theorem mem_foldl_add_file (l : List Path) {s : List Path × List Path}
    (hs : ∀ p, p ∈ s.1 ↔ p ∈ s.2) :
    (∀ p, p ∈ (l.foldl (add_file tree disk) s).1 ↔ p ∈ (l.foldl (add_file tree disk) s).2)
      ∧ ∀ p, p ∈ (l.foldl (add_file tree disk) s).1
        ↔ p ∈ s.1 ∨ (p ∈ l ∧ is_file tree disk p = true ∧ supported p = true) := by
  induction l generalizing s with
  | nil => exact ⟨hs, by simp⟩
  | cons item l ih =>
      rw [List.foldl_cons]
      by_cases hadd : is_file tree disk item ∧ supported item ∧ item ∉ s.2
      · rw [add_file, if_pos hadd]
        obtain ⟨hseen, hmem⟩ := ih (s := (s.1 ++ [item], item :: s.2))
          (fun p => by simp only [List.mem_append, List.mem_cons, hs]; tauto)
        refine ⟨hseen, fun p => ?_⟩
        rw [hmem, List.mem_append, List.mem_singleton, List.mem_cons]
        constructor
        · rintro ((h | rfl) | ⟨h, hp⟩)
          · exact Or.inl h
          · exact Or.inr ⟨Or.inl rfl, hadd.1, hadd.2.1⟩
          · exact Or.inr ⟨Or.inr h, hp⟩
        · rintro (h | ⟨rfl | h, hp⟩)
          · exact Or.inl (Or.inl h)
          · exact Or.inl (Or.inr rfl)
          · exact Or.inr ⟨h, hp⟩
      · rw [add_file, if_neg hadd]
        obtain ⟨hseen, hmem⟩ := ih hs
        refine ⟨hseen, fun p => ?_⟩
        rw [hmem, List.mem_cons]
        constructor
        · rintro (h | ⟨h, hp⟩)
          · exact Or.inl h
          · exact Or.inr ⟨Or.inr h, hp⟩
        · rintro (h | ⟨rfl | h, hp⟩)
          · exact Or.inl h
          -- a file that is left out has been seen
          · left
            rw [hs]
            by_contra hnot
            exact hadd ⟨hp.1, hp.2, hnot⟩
          · exact Or.inr ⟨h, hp⟩

/-- **What a run works on**: the supported files at the paths it was given or, for a directory, in
it. -/
theorem mem_collect_iff :
    f ∈ collect_presentation_files tree disk paths recursive
      ↔ (∃ p ∈ paths, f ∈ items tree disk recursive (tree.resolve p))
        ∧ is_file tree disk f = true ∧ supported f = true := by
  -- one argument after the other, with what was found before: the list and the set of seen files
  -- are the same
  have hgen : ∀ (l : List Path) (s : List Path × List Path), (∀ p, p ∈ s.1 ↔ p ∈ s.2) →
      (f ∈ (l.foldl (fun s p_str =>
        (items tree disk recursive (tree.resolve p_str)).foldl (add_file tree disk) s) s).1
      ↔ f ∈ s.1 ∨ ((∃ p ∈ l, f ∈ items tree disk recursive (tree.resolve p))
        ∧ is_file tree disk f = true ∧ supported f = true)) := by
    intro l
    induction l with
    | nil => simp
    | cons q l ih =>
        intro s hs
        obtain ⟨hseen, hmem⟩ := @mem_foldl_add_file tree disk
          (items tree disk recursive (tree.resolve q)) s hs
        rw [List.foldl_cons, ih _ hseen, hmem]
        simp only [List.exists_mem_cons_iff]
        tauto
  rw [collect_presentation_files, List.mem_mergeSort, hgen paths ([], []) (by simp)]
  simp

end Collect

/-- What a run sets out to convert: the collected files behind their links, those left out
whose own name has another extension. -/
def sources (tree : Tree) (paths : List Path) (recursive : Bool) : List Path :=
  ((collect_presentation_files tree tree.toDisk paths recursive).map tree.resolve).filter
    fun p => supported p

/-- A source is there at the start, and has a suffix of a presentation. -/
theorem isSome_of_mem_sources {tree : Tree} {paths : List Path} {recursive : Bool} {src : Path}
    (hsrc : src ∈ sources tree paths recursive) :
    (tree.file src).isSome ∧ supported src = true := by
  obtain ⟨hmem, hsupp⟩ := List.mem_filter.mp hsrc
  obtain ⟨f, hf, rfl⟩ := List.mem_map.mp hmem
  exact ⟨(mem_collect_iff.mp hf).2.1, hsupp⟩

/-! ## One conversion -/

/-- The name of a PDF is none of the extensions of a source. -/
theorem supported_pdf_in (target_dir src : Path) : supported (pdf_in target_dir src) = false := by
  have hname : name (pdf_in target_dir src) = stem src ++ ['.', 'p', 'd', 'f'] := by
    simp [name, pdf_in]
  have hidx : (stem src ++ ['.', 'p', 'd', 'f']).reverse.idxOf? '.' = some 3 := by
    simp [List.idxOf?, List.findIdx?_cons]
  have hlen : (stem src ++ ['.', 'p', 'd', 'f']).length - 1 - 3 = (stem src).length := by simp
  have hdot : dot_index (stem src ++ ['.', 'p', 'd', 'f'])
      = if 0 < (stem src).length then some (stem src).length else none := by
    rw [dot_index, hidx]
    simp only [hlen]
    simp
  rw [supported, suffix, hname, hdot]
  by_cases hstem : 0 < (stem src).length
  · simp only [if_pos hstem, List.drop_left]
    decide
  · simp only [if_neg hstem]
    decide

/-- So no source is in the place of a PDF. -/
theorem ne_pdf_in_of_supported {p : Path} (hp : supported p = true) (target_dir src : Path) :
    p ≠ pdf_in target_dir src := by
  rintro rfl
  rw [supported_pdf_in] at hp
  cases hp

section Convert

variable {tree : Tree} {os : Os} {output_dir : Option Path} {lo_bin : Path} {w : World}

/-- `mkdir` makes directories and touches no file. -/
theorem mkdir_dir {p : Path} {disk disk' : Disk} (h : mkdir os p disk = some disk') :
    disk'.file = disk.file ∧ disk'.dir p = true ∧ ∀ q, disk.dir q = true → disk'.dir q = true := by
  rw [mkdir] at h
  split at h
  · obtain rfl := Option.some.inj h
    exact ⟨rfl, ‹_›, fun q hq => hq⟩
  · split at h
    · obtain rfl := Option.some.inj h
      refine ⟨rfl, ?_, fun q hq => ?_⟩
      · simp
      · simp [hq]
    · cases h

/-- The check leaves the world as it is or deletes the source. -/
theorem verify_cases (src pdf : Path) (w : World) :
    (verify os true src pdf w).2 = w
      ∨ (verify os true src pdf w).2 = w.unlink src := by
  cases hpdf : w.disk.file pdf with
  | none => exact Or.inl (by simp [verify, hpdf])
  | some f =>
      by_cases hsize : f.size > 0
      · by_cases hunlink : os.unlink src = true
        · exact Or.inr (by simp [verify, hpdf, hsize, hunlink])
        · exact Or.inl (by simp [verify, hpdf, hsize, hunlink])
      · exact Or.inl (by simp [verify, hpdf, hsize])

/-- `Converted w src pdf w'`: a conversion of `src` was tried. No file changes but `pdf` and
`src`, and if `src` is deleted, then its PDF is in `pdf`. -/
structure Converted (w : World) (src pdf : Path) (w' : World) : Prop where
  was_file : (w.disk.file src).isSome
  frame : ∀ p, p ≠ pdf → p ≠ src → w'.disk.file p = w.disk.file p
  result : (w'.removed = w.removed ∧ w'.disk.file src = w.disk.file src)
    ∨ (w'.removed = w.removed ++ [src] ∧ w'.disk.file src = none
      ∧ ∃ f, w'.disk.file pdf = some f ∧ f.pdf_of = some src)

section Call

variable {file_path src : Path} {remove_original : Bool}

/-- Whether a source is still there is a question of the disk alone. -/
theorem is_file_resolve (hsrc : tree.resolve file_path = src) :
    is_file tree w.disk src = (w.disk.file src).isSome := by
  rw [is_file, ← hsrc, tree.resolve_resolve]

/-- A call for what is not a presentation: it fails before anything is done. -/
theorem convert_single_file_skip (hsrc : tree.resolve file_path = src)
    (h : ¬ ((w.disk.file src).isSome = true ∧ supported src = true)) :
    convert_single_file tree os file_path output_dir remove_original (some lo_bin) w
      = (some false, w) := by
  rw [convert_single_file, hsrc, is_file_resolve hsrc]
  by_cases hfile : (w.disk.file src).isSome = true
  · have hsupp : ¬ supported src = true := fun hsupp => h ⟨hfile, hsupp⟩
    rw [if_neg (not_not.mpr hfile), if_pos hsupp]
  · rw [if_pos hfile]

/-- A call whose target directory cannot be made raises an exception. -/
theorem convert_single_file_raise (hsrc : tree.resolve file_path = src)
    (hfile : (w.disk.file src).isSome) (hsupp : supported src = true)
    (hmk : mkdir os (target_dir tree output_dir src) w.disk = none) :
    convert_single_file tree os file_path output_dir remove_original (some lo_bin) w
      = (none, w) := by
  simp only [convert_single_file, hsrc, is_file_resolve hsrc, hfile, hsupp, hmk, Option.some_or,
    not_true_eq_false, if_false]

/-- What is left of a call when the source is a presentation and its directory is made. -/
theorem convert_single_file_eq {disk : Disk} (hsrc : tree.resolve file_path = src)
    (hfile : (w.disk.file src).isSome) (hsupp : supported src = true)
    (hmk : mkdir os (target_dir tree output_dir src) w.disk = some disk) :
    convert_single_file tree os file_path output_dir remove_original (some lo_bin) w
      = if (os.soffice lo_bin (target_dir tree output_dir src) src disk).1 = .exited 0 then
          let verified := verify os remove_original src (target_pdf tree output_dir src)
            { w with disk := (os.soffice lo_bin (target_dir tree output_dir src) src disk).2 }
          (some verified.1, verified.2)
        else
          (some false,
            { w with
              disk := (os.soffice lo_bin (target_dir tree output_dir src) src disk).2 }) := by
  simp only [convert_single_file, hsrc, is_file_resolve hsrc, hfile, hsupp, hmk, Option.some_or,
    not_true_eq_false, if_false]

end Call

section Converted

variable {src pdf : Path} {disk : Disk} (hfile : (w.disk.file src).isSome) (hne : src ≠ pdf)
  (hsame : ∀ p, p ≠ pdf → disk.file p = w.disk.file p)

include hfile hne hsame

/-- Nothing has happened to the files. -/
theorem Converted.of_same : Converted w src pdf { w with disk } :=
  ⟨hfile, fun p hp _ => hsame p hp, Or.inl ⟨rfl, hsame src hne⟩⟩

/-- A source is removed behind the check, so with its own PDF in place the removal loses
nothing. -/
theorem Converted.of_verify (hpdf : ∃ f, disk.file pdf = some f ∧ f.pdf_of = some src) :
    Converted w src pdf (verify os true src pdf { w with disk }).2 := by
  rcases verify_cases src pdf { w with disk } with hkept | hunlinked
  · rw [hkept]
    exact Converted.of_same hfile hne hsame
  · rw [hunlinked]
    refine ⟨hfile, fun p hp hpsrc => ?_, Or.inr ⟨rfl, World.unlink_file_self .., ?_⟩⟩
    · rw [World.unlink_file_of_ne _ hpsrc]
      exact hsame p hp
    · rw [World.unlink_file_of_ne _ hne.symm]
      exact hpdf

end Converted

/-- With an honest LibreOffice a call changes nothing, or it converts a presentation whose
target directory could be made. -/
theorem convert_single_file_cases (hos : os.Honest) (file_path : Path) :
    (convert_single_file tree os file_path output_dir true (some lo_bin) w).2 = w
      ∨ (supported (tree.resolve file_path) = true
        ∧ (mkdir os (target_dir tree output_dir (tree.resolve file_path)) w.disk).isSome
        ∧ Converted w (tree.resolve file_path)
          (target_pdf tree output_dir (tree.resolve file_path))
          (convert_single_file tree os file_path output_dir true (some lo_bin) w).2) := by
  generalize hsrc : tree.resolve file_path = src
  by_cases h : (w.disk.file src).isSome = true ∧ supported src = true
  swap
  · exact Or.inl (by rw [convert_single_file_skip hsrc h])
  obtain ⟨hfile, hsupp⟩ := h
  cases hmk : mkdir os (target_dir tree output_dir src) w.disk with
  | none => exact Or.inl (by rw [convert_single_file_raise hsrc hfile hsupp hmk])
  | some disk =>
      refine Or.inr ⟨hsupp, rfl, ?_⟩
      have hne : src ≠ target_pdf tree output_dir src := ne_pdf_in_of_supported hsupp _ _
      have hpdf := hos.pdf lo_bin (target_dir tree output_dir src) src disk
      have hframe := hos.frame lo_bin (target_dir tree output_dir src) src disk
      rw [← target_pdf] at hpdf hframe
      rw [(mkdir_dir hmk).1] at hframe
      rw [convert_single_file_eq hsrc hfile hsupp hmk]
      by_cases hexit : (os.soffice lo_bin (target_dir tree output_dir src) src disk).1 = .exited 0
      · rw [if_pos hexit]
        exact Converted.of_verify hfile hne hframe (hpdf hexit)
      · rw [if_neg hexit]
        exact Converted.of_same hfile hne hframe

end Convert

/-! ## Runs -/

section Run

variable {tree : Tree} {os : Os} {output_dir : Option Path} {lo_bin : Path}

/-- What every call keeps, every run keeps: the induction over the list of files, once for all
invariants. -/
theorem convert_files_invariant {P : World → Prop} {rm : Bool} {files : List Path}
    (hstep : ∀ f ∈ files, ∀ w, P w →
      P (convert_single_file tree os f output_dir rm (some lo_bin) w).2)
    (s : ℕ × ℕ) {w : World} (hw : P w) :
    P (convert_files tree os output_dir rm lo_bin files s w).2 := by
  induction files generalizing s w with
  | nil => exact hw
  | cons f files ih =>
      have hfirst := hstep f (List.mem_cons_self ..) w hw
      rw [convert_files]
      split
      · rename_i w' hconv
        rwa [hconv] at hfirst
      · rename_i ok w' hconv
        rw [hconv] at hfirst
        exact ih (fun g hg => hstep g (List.mem_cons_of_mem f hg)) _ hfirst

/-- A run of `convert_all` is a run over the collected files, -/
theorem convert_all_world {rm recursive : Bool} {paths : List Path} (hbin : os.lo_bin = some lo_bin)
    (hfiles : collect_presentation_files tree tree.toDisk paths recursive ≠ []) :
    (convert_all tree os paths output_dir rm recursive).2
      = (convert_files tree os output_dir rm lo_bin
        (collect_presentation_files tree tree.toDisk paths recursive) (0, 0)
        { disk := tree.toDisk, removed := [] }).2 := by
  rw [convert_all, hbin]
  simp only
  rw [if_neg hfiles]
  split
  · rename_i w hw
    rw [hw]
  · rename_i s w hw
    rw [hw]

/-- or nothing happens. -/
theorem convert_all_idle {rm recursive : Bool} {paths : List Path}
    (h : os.lo_bin = none ∨ collect_presentation_files tree tree.toDisk paths recursive = []) :
    (convert_all tree os paths output_dir rm recursive).2
      = { disk := tree.toDisk, removed := [] } := by
  rw [convert_all]
  rcases h with hbin | hfiles
  · rw [hbin]
  · cases hbin : os.lo_bin with
    | none => rfl
    | some lo_bin =>
        simp only
        rw [if_pos hfiles]

/-- **The rule for a run**: what the conversion of each collected file keeps is kept. -/
theorem convert_all_invariant {P : World → Prop} {rm : Bool} {paths : List Path}
    {recursive : Bool}
    (hstep : ∀ lo_bin, ∀ f ∈ collect_presentation_files tree tree.toDisk paths recursive, ∀ w,
      P w → P (convert_single_file tree os f output_dir rm (some lo_bin) w).2)
    (hstart : P { disk := tree.toDisk, removed := [] }) :
    P (convert_all tree os paths output_dir rm recursive).2 := by
  cases hbin : os.lo_bin with
  | none =>
      rw [convert_all_idle (Or.inl hbin)]
      exact hstart
  | some lo_bin =>
      by_cases hfiles : collect_presentation_files tree tree.toDisk paths recursive = []
      · rw [convert_all_idle (Or.inr hfiles)]
        exact hstart
      · rw [convert_all_world hbin hfiles]
        exact convert_files_invariant (hstep lo_bin) (0, 0) hstart

/-- Every source that was deleted is gone, and its own PDF is in its place. -/
def Kept (tree : Tree) (output_dir : Option Path) (l : List Path) (w : World) : Prop :=
  ∀ r ∈ w.removed, r ∈ l ∧ w.disk.file r = none
    ∧ ∃ f, w.disk.file (target_pdf tree output_dir r) = some f ∧ f.pdf_of = some r

/-- A conversion that respects its own PDF keeps those of the others, as long as no other source
has its PDF at the same place. -/
theorem Kept.convert {w w' : World} {src : Path} {l : List Path} (hw : Kept tree output_dir l w)
    (hsupp : ∀ r ∈ l, supported r = true) (hsrc : src ∈ l)
    (hplace : ∀ r ∈ l, target_pdf tree output_dir r = target_pdf tree output_dir src → r = src)
    (hconv : Converted w src (target_pdf tree output_dir src) w') : Kept tree output_dir l w' := by
  have hne : ∀ r ∈ l, ∀ s, r ≠ target_pdf tree output_dir s :=
    fun r hr s => ne_pdf_in_of_supported (hsupp r hr) _ _
  -- a deleted source is not `src`, which is a file; so its PDF has another place
  have hold : ∀ r ∈ w.removed, r ∈ l ∧ w'.disk.file r = none
      ∧ ∃ f, w'.disk.file (target_pdf tree output_dir r) = some f ∧ f.pdf_of = some r := by
    intro r hr
    obtain ⟨hrl, hgone, hpdf⟩ := hw r hr
    have hrsrc : r ≠ src := by
      rintro rfl
      have := hconv.was_file
      rw [hgone] at this
      cases this
    refine ⟨hrl, ?_, ?_⟩
    · rw [hconv.frame r (hne r hrl src) hrsrc, hgone]
    · rwa [hconv.frame _ (fun h => hrsrc (hplace r hrl h)) (hne src hsrc r).symm]
  rcases hconv.result with ⟨hsame, -⟩ | ⟨hmore, hgone, hpdf⟩
  · intro r hr
    exact hold r (hsame ▸ hr)
  · intro r hr
    rw [hmore, List.mem_append, List.mem_singleton] at hr
    rcases hr with hr | rfl
    · exact hold r hr
    · exact ⟨hsrc, hgone, hpdf⟩

/-- `output_dir` cannot be made: a file is in the way. -/
def Blocked (tree : Tree) (output_dir : Option Path) : Prop :=
  ∃ d, output_dir = some d ∧ tree.dir (tree.resolve d) = false
    ∧ ∃ q, q <+: tree.resolve d ∧ (tree.file q).isSome

/-- Where a directory can not be made, no conversion gets to LibreOffice. -/
theorem Blocked.mkdir_eq_none (h : Blocked tree output_dir) (src : Path) :
    mkdir os (target_dir tree output_dir src) tree.toDisk = none := by
  obtain ⟨d, rfl, hdir, q, hq, hfile⟩ := h
  rw [target_dir, mkdir, if_neg (by simp [hdir]), if_neg]
  rintro ⟨-, hall⟩
  have := List.all_eq_true.mp hall q ((List.mem_inits ..).mpr hq)
  rw [Option.isNone_iff_eq_none] at this
  rw [this] at hfile
  cases hfile

/-- After `convert_all` every deleted source has its own PDF: a file at its place that was made
from it. -/
def KeepsPdfs (tree : Tree) (os : Os) (paths : List Path) (output_dir : Option Path)
    (recursive : Bool) : Prop :=
  ∀ src ∈ (convert_all tree os paths output_dir true recursive).2.removed,
    ∃ f, (convert_all tree os paths output_dir true recursive).2.disk.file
        (target_pdf tree output_dir src) = some f
      ∧ f.pdf_of = some src

/-- And so none removes anything: without a place for the PDF, no call comes to the deletion. -/
theorem Blocked.keepsPdfs (h : Blocked tree output_dir) (hos : os.Honest) (paths : List Path)
    (recursive : Bool) : KeepsPdfs tree os paths output_dir recursive := by
  have hnone : (convert_all tree os paths output_dir true recursive).2
      = { disk := tree.toDisk, removed := [] } := by
    refine @convert_all_invariant tree os output_dir (fun w => w = _) true paths recursive
      (fun lo_bin f _ w hw => ?_) rfl
    subst hw
    rcases @convert_single_file_cases tree os output_dir lo_bin
      { disk := tree.toDisk, removed := [] } hos f with hidle | ⟨-, hmk, -⟩
    · exact hidle
    · rw [h.mkdir_eq_none] at hmk
      cases hmk
  intro src hsrc
  rw [hnone] at hsrc
  cases hsrc

/-- **Enough for the promise**: an honest LibreOffice, and sources with PDFs at different
places. -/
theorem keepsPdfs_of_places {paths : List Path} {recursive : Bool} (hos : os.Honest)
    (hplace : ∀ s₁ ∈ sources tree paths recursive, ∀ s₂ ∈ sources tree paths recursive,
      target_pdf tree output_dir s₁ = target_pdf tree output_dir s₂ → s₁ = s₂) :
    KeepsPdfs tree os paths output_dir recursive := by
  have hkept : Kept tree output_dir (sources tree paths recursive)
      (convert_all tree os paths output_dir true recursive).2 := by
    refine convert_all_invariant (fun lo_bin f hf w hw => ?_) (fun r hr => by cases hr)
    rcases @convert_single_file_cases tree os output_dir lo_bin w hos f with
      hidle | ⟨hsupp, -, hconv⟩
    · rwa [hidle]
    · have hsrc : tree.resolve f ∈ sources tree paths recursive :=
        List.mem_filter.mpr ⟨List.mem_map_of_mem hf, hsupp⟩
      exact hw.convert (fun r hr => (isSome_of_mem_sources hr).2) hsrc
        (fun r hr h => hplace r hr _ hsrc h) hconv
  intro src hsrc
  exact (hkept src hsrc).2.2

/-! ### Two sources with one place -/

/-- The disk with the PDF of `src` in its place. -/
def Disk.with_pdf (disk : Disk) (target_dir src : Path) : Disk :=
  { disk with
    file := Function.update disk.file (pdf_in target_dir src)
      (some { size := 1, pdf_of := some src }) }

/-- A new PDF is one file. -/
theorem Disk.with_pdf_of_ne (disk : Disk) {target_dir src p : Path}
    (h : p ≠ pdf_in target_dir src) : (disk.with_pdf target_dir src).file p = disk.file p :=
  Function.update_of_ne h ..

/-- LibreOffice converts `s₁` and `s₂` and fails on the rest, and all is permitted. -/
def only (s₁ s₂ : Path) : Os where
  lo_bin := some []
  mkdir _ := true
  soffice _ target_dir src disk :=
    if src = s₁ ∨ src = s₂ then (.exited 0, disk.with_pdf target_dir src) else (.exited 1, disk)
  unlink _ := true

/-- The LibreOffice that converts two sources and fails at all others is honest: what it writes is
the PDF of what it was given. -/
theorem only_honest (s₁ s₂ : Path) : (only s₁ s₂).Honest where
  pdf bin target_dir src disk h := by
    by_cases hsrc : src = s₁ ∨ src = s₂
    · simp [only, hsrc, Disk.with_pdf]
    · simp [only, hsrc] at h
  frame bin target_dir src disk p hp := by
    by_cases hsrc : src = s₁ ∨ src = s₂
    · simp [only, hsrc, Disk.with_pdf_of_ne disk hp]
    · simp [only, hsrc]

variable {s₁ s₂ : Path} {l : List Path} {w : World}

/-- Every target directory is there or can be made, and neither of the two is lost. -/
structure Ready (tree : Tree) (output_dir : Option Path) (l : List Path) (s₁ s₂ : Path)
    (w : World) : Prop where
  target : ∀ s ∈ l, w.disk.dir (target_dir tree output_dir s) = true
    ∨ ∃ d, output_dir = some d ∧ ∀ q, q <+: tree.resolve d → w.disk.file q = none
  present : ∀ s, s = s₁ ∨ s = s₂ → s ∈ w.removed ∨ (w.disk.file s).isSome

/-- The directory of a source can be made at every moment of the run. -/
theorem Ready.mkdir (h : Ready tree output_dir l s₁ s₂ w) {src : Path} (hsrc : src ∈ l) :
    ∃ disk, mkdir (only s₁ s₂) (target_dir tree output_dir src) w.disk = some disk := by
  rw [PptToPdf.mkdir]
  rcases h.target src hsrc with hdir | ⟨d, rfl, hfree⟩
  · exact ⟨w.disk, if_pos hdir⟩
  · split
    · exact ⟨_, rfl⟩
    · refine ⟨_, if_pos ⟨rfl, List.all_eq_true.mpr fun q hq => ?_⟩⟩
      rw [hfree q ((List.mem_inits ..).mp hq)]
      rfl

/-- A directory that was made stays, so a call leaves every target directory in reach. -/
theorem Ready.target_of_mkdir (h : Ready tree output_dir l s₁ s₂ w) {src : Path} {disk : Disk}
    (hmk : PptToPdf.mkdir os (target_dir tree output_dir src) w.disk = some disk) {s : Path}
    (hs : s ∈ l) : disk.dir (target_dir tree output_dir s) = true := by
  obtain ⟨-, hnew, hold⟩ := mkdir_dir hmk
  rcases h.target s hs with hdir | ⟨d, rfl, -⟩
  · exact hold _ hdir
  · exact hnew

/-- One of the two is converted and deleted. -/
theorem Ready.delete (h : Ready tree output_dir l s₁ s₂ w) (hsupp : ∀ r ∈ l, supported r = true)
    (htwo : ∀ s, s = s₁ ∨ s = s₂ → s ∈ l) {src : Path} {disk : Disk}
    (hmk : PptToPdf.mkdir (only s₁ s₂) (target_dir tree output_dir src) w.disk = some disk) :
    Ready tree output_dir l s₁ s₂
      (World.unlink { w with disk := disk.with_pdf (target_dir tree output_dir src) src } src) := by
  refine ⟨fun s hs => Or.inl (h.target_of_mkdir hmk hs), fun s hs => ?_⟩
  by_cases hssrc : s = src
  · exact Or.inl (List.mem_append_right _ (List.mem_singleton.mpr hssrc))
  · refine (h.present s hs).imp (List.mem_append_left _) fun hsfile => ?_
    have hpdf := ne_pdf_in_of_supported (hsupp s (htwo s hs)) (target_dir tree output_dir src) src
    rw [World.unlink_file_of_ne _ hssrc, Disk.with_pdf_of_ne disk hpdf, (mkdir_dir hmk).1]
    exact hsfile

/-- One call: it raises nothing, keeps what is needed, and deletes either of the two. -/
theorem Ready.convert (h : Ready tree output_dir l s₁ s₂ w) (hsupp : ∀ r ∈ l, supported r = true)
    (htwo : ∀ s, s = s₁ ∨ s = s₂ → s ∈ l) {f : Path}
    (hf : supported (tree.resolve f) = true → tree.resolve f ∈ l) :
    ∃ ok w', convert_single_file tree (only s₁ s₂) f output_dir true (some lo_bin) w = (some ok, w')
      ∧ Ready tree output_dir l s₁ s₂ w' ∧ (∀ s ∈ w.removed, s ∈ w'.removed)
      ∧ (tree.resolve f = s₁ ∨ tree.resolve f = s₂ → tree.resolve f ∈ w'.removed) := by
  generalize hsrc : tree.resolve f = src at hf ⊢
  by_cases hready : (w.disk.file src).isSome = true ∧ supported src = true
  swap
  · refine ⟨false, w, convert_single_file_skip hsrc hready, h, fun s hs => hs, fun hx => ?_⟩
    exact (h.present src hx).resolve_right fun hfile => hready ⟨hfile, hsupp src (htwo src hx)⟩
  obtain ⟨hfile, hsrcsupp⟩ := hready
  obtain ⟨disk, hmk⟩ := h.mkdir (hf hsrcsupp)
  rw [convert_single_file_eq hsrc hfile hsrcsupp hmk]
  by_cases hx : src = s₁ ∨ src = s₂
  · have hsoffice : (only s₁ s₂).soffice lo_bin (target_dir tree output_dir src) src disk
        = (.exited 0, disk.with_pdf (target_dir tree output_dir src) src) := if_pos hx
    have hverify : verify (only s₁ s₂) true src (target_pdf tree output_dir src)
        { w with disk := disk.with_pdf (target_dir tree output_dir src) src }
        = (true, World.unlink
          { w with disk := disk.with_pdf (target_dir tree output_dir src) src } src) := by
      simp [verify, Disk.with_pdf, target_pdf, only]
    rw [hsoffice, if_pos rfl]
    simp only [hverify]
    exact ⟨_, _, rfl, h.delete hsupp htwo hmk, fun s hs => List.mem_append_left _ hs,
      fun _ => List.mem_append_right _ (List.mem_singleton.mpr rfl)⟩
  · have hsoffice : (only s₁ s₂).soffice lo_bin (target_dir tree output_dir src) src disk
        = (.exited 1, disk) := if_neg hx
    rw [hsoffice, if_neg (by simp)]
    refine ⟨_, _, rfl, ⟨fun s hs => Or.inl (h.target_of_mkdir hmk hs), fun s hs => ?_⟩,
      fun s hs => hs, fun h => absurd h hx⟩
    rw [(mkdir_dir hmk).1]
    exact h.present s hs

/-- A run deletes both, if they are among its files. -/
theorem Ready.convert_files {files : List Path} (s : ℕ × ℕ)
    (h : Ready tree output_dir l s₁ s₂ w) (hsupp : ∀ r ∈ l, supported r = true)
    (htwo : ∀ s, s = s₁ ∨ s = s₂ → s ∈ l)
    (hfiles : ∀ f ∈ files, supported (tree.resolve f) = true → tree.resolve f ∈ l)
    {x : Path} (hx : x = s₁ ∨ x = s₂) (hmem : x ∈ w.removed ∨ ∃ f ∈ files, tree.resolve f = x) :
    x ∈ (convert_files tree (only s₁ s₂) output_dir true lo_bin files s w).2.removed := by
  induction files generalizing s w with
  | nil =>
      rcases hmem with hmem | ⟨f, hf, -⟩
      · exact hmem
      · cases hf
  | cons f files ih =>
      obtain ⟨ok, w', hconv, hready, hmono, hdel⟩ :=
        @Ready.convert tree output_dir lo_bin s₁ s₂ l w h hsupp htwo f
          (hfiles f (List.mem_cons_self ..))
      rw [PptToPdf.convert_files, hconv]
      refine ih _ hready (fun g hg => hfiles g (List.mem_cons_of_mem f hg)) ?_
      -- it is gone already, or it is this file, or it comes later
      rcases hmem with hmem | ⟨g, hg, rfl⟩
      · exact Or.inl (hmono x hmem)
      · rcases List.mem_cons.mp hg with rfl | hg
        · exact Or.inl (hdel hx)
        · exact Or.inr ⟨g, hg, rfl⟩

/-- The disk at the start is one on which the two sources can be converted. -/
theorem Ready.start {paths : List Path} {recursive : Bool} (hblocked : ¬ Blocked tree output_dir)
    (htwo : ∀ s, s = s₁ ∨ s = s₂ → s ∈ sources tree paths recursive) :
    Ready tree output_dir (sources tree paths recursive) s₁ s₂
      { disk := tree.toDisk, removed := [] } := by
  refine ⟨fun s hs => ?_, fun s hs => Or.inr (isSome_of_mem_sources (htwo s hs)).1⟩
  cases hout : output_dir with
  | none => exact Or.inl (tree.parent_dir s (isSome_of_mem_sources hs).1)
  | some d =>
      rw [or_iff_not_imp_left, target_dir, Bool.not_eq_true]
      intro hdir
      refine ⟨d, rfl, fun q hq => ?_⟩
      by_contra hfile
      exact hblocked ⟨d, hout, hdir, q, hq, Option.isSome_iff_ne_none.mpr hfile⟩

/-- Both of the two sources are removed, the second one although its PDF has been written over or
was that of the first. -/
theorem removed_of_only {paths : List Path} {recursive : Bool}
    (hblocked : ¬ Blocked tree output_dir)
    (htwo : ∀ s, s = s₁ ∨ s = s₂ → s ∈ sources tree paths recursive) {x : Path}
    (hx : x = s₁ ∨ x = s₂) :
    x ∈ (convert_all tree (only s₁ s₂) paths output_dir true recursive).2.removed := by
  obtain ⟨f, hf, hfx⟩ := List.mem_map.mp (List.mem_filter.mp (htwo x hx)).1
  have hbin : (only s₁ s₂).lo_bin = some [] := rfl
  rw [convert_all_world hbin (List.ne_nil_of_mem hf)]
  exact (Ready.start hblocked htwo).convert_files (0, 0)
    (fun r hr => (isSome_of_mem_sources hr).2) htwo
    (fun g hg hg' => List.mem_filter.mpr ⟨List.mem_map_of_mem hg, hg'⟩) hx (Or.inr ⟨f, hf, hfx⟩)

/-- Two sources with one place, and a LibreOffice that converts both: one PDF for the two. -/
theorem not_keepsPdfs_of_same_place {paths : List Path} {recursive : Bool}
    (hblocked : ¬ Blocked tree output_dir) (hs₁ : s₁ ∈ sources tree paths recursive)
    (hs₂ : s₂ ∈ sources tree paths recursive) (hne : s₁ ≠ s₂)
    (hplace : target_pdf tree output_dir s₁ = target_pdf tree output_dir s₂) :
    ¬ KeepsPdfs tree (only s₁ s₂) paths output_dir recursive := by
  intro hkeeps
  have htwo : ∀ s, s = s₁ ∨ s = s₂ → s ∈ sources tree paths recursive := by
    rintro s (rfl | rfl)
    · exact hs₁
    · exact hs₂
  obtain ⟨f₁, hf₁, h₁⟩ := hkeeps s₁ (removed_of_only hblocked htwo (Or.inl rfl))
  obtain ⟨f₂, hf₂, h₂⟩ := hkeeps s₂ (removed_of_only hblocked htwo (Or.inr rfl))
  rw [hplace, hf₂] at hf₁
  obtain rfl := Option.some.inj hf₁
  exact hne (Option.some.inj (h₁.symm.trans h₂))

end Run

/-- Whatever an honest LibreOffice does, no deleted presentation is without its PDF, exactly
if no two of the sources share their place, or no PDF can be placed at all. -/
theorem keeps_pdfs_iff (tree : Tree) (paths : List Path) (output_dir : Option Path)
    (recursive : Bool) :
    (∀ os : Os, os.Honest → KeepsPdfs tree os paths output_dir recursive)
      ↔ Blocked tree output_dir
        ∨ ∀ s₁ ∈ sources tree paths recursive, ∀ s₂ ∈ sources tree paths recursive,
          target_pdf tree output_dir s₁ = target_pdf tree output_dir s₂ → s₁ = s₂ := by
  constructor
  · intro hall
    rw [or_iff_not_imp_left]
    intro hblocked s₁ hs₁ s₂ hs₂ hplace
    by_contra hne
    exact not_keepsPdfs_of_same_place hblocked hs₁ hs₂ hne hplace (hall _ (only_honest s₁ s₂))
  · rintro (hblocked | hplace) os hos
    · exact hblocked.keepsPdfs hos paths recursive
    · exact keepsPdfs_of_places hos hplace

/-- A directory with one presentation in two formats, `d/a.ppt` and `d/a.pptx`. -/
def two_formats : Tree where
  file p :=
    if p = [['d'], ['a', '.', 'p', 'p', 't']] ∨ p = [['d'], ['a', '.', 'p', 'p', 't', 'x']] then
      some { size := 1, pdf_of := none }
    else
      none
  dir p := p = [['d']]
  resolve := id
  glob p _ :=
    if p = [['d']] then
      [[['d'], ['a', '.', 'p', 'p', 't']], [['d'], ['a', '.', 'p', 'p', 't', 'x']]]
    else
      []
  resolve_resolve _ := rfl
  parent_dir p hp := by
    split at hp
    · rename_i h
      rcases h with rfl | rfl
      · rfl
      · rfl
    · cases hp

theorem two_formats_sources {p : Path} (hp : p ∈ two_formats.glob [['d']] true)
    (hfile : is_file two_formats two_formats.toDisk p = true)
    (hsupp : supported p = true) : p ∈ sources two_formats [[['d']]] true :=
  List.mem_filter.mpr ⟨List.mem_map.mpr ⟨p, mem_collect_iff.mpr
    ⟨⟨_, List.mem_singleton.mpr rfl, hp⟩, hfile, hsupp⟩, rfl⟩, hsupp⟩

/-- `a.pdf` is made from `a.ppt`, then from `a.pptx`, and both are deleted. -/
theorem not_always_keeps_pdfs :
    ¬ ∀ (tree : Tree) (os : Os) (paths : List Path) (output_dir : Option Path) (recursive : Bool),
      os.Honest → KeepsPdfs tree os paths output_dir recursive := by
  intro hall
  have hblocked : ¬ Blocked two_formats none := by
    rintro ⟨d, hd, -⟩
    cases hd
  refine not_keepsPdfs_of_same_place hblocked
    (@two_formats_sources [['d'], ['a', '.', 'p', 'p', 't']] (by decide) (by decide) (by decide))
    (@two_formats_sources [['d'], ['a', '.', 'p', 'p', 't', 'x']] (by decide) (by decide)
      (by decide)) (by decide) (by decide) (hall _ _ _ _ _ (only_honest _ _))

end CourseLabs.PptToPdf
