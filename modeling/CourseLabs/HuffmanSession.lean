/-
`CSMCS26A017_Lab2_2.c`, the whole program: what its runs do to the files.

`main` works on two names of its command line, on one, on three fixed ones, or it is a menu
that reads its commands from the console. The files are kept apart from the names (`Files`),
since two names may stand for one file. A program that writes over the file it reads leaves
there what the buffers of its streams make of it; that is left open (`Os.torn_huf`,
`Os.torn_txt`). A file has as many bytes at most as a `uint64_t` counts, and what does not fit
is not written: the program does not look at the results of `fputc`.

The menu is a run of the commands its turns read, one after the other (`menu_eq`), and it is
only the console that decides whether it comes to an end: at the end of the input it waits for
a newline for ever.
-/
import CourseLabs.CNumber
import CourseLabs.CText
import CourseLabs.Files
import CourseLabs.HuffmanBounds
import CourseLabs.HuffmanSuccess

set_option autoImplicit false

namespace CourseLabs.HuffmanSession

open CourseLabs.CInt CourseLabs.CLoop CourseLabs.CMem CourseLabs.CNumber CourseLabs.CText
open CourseLabs.Files CourseLabs.Huffman

/-! ## The files -/

/-- The size of the arrays for the names a user types; the output names get `32` more. -/
def MAX_PATH_LEN : ℕ := 512

/-- The longest file there may be, so that its size is a `uint64_t`. What is written behind that
length is lost. -/
def MAX_FILE : ℕ := 2 ^ 64 - 1

/-- The contents of a file. The bound is a field of the type, so that no lemma about a run has to
ask for it again. -/
abbrev File := {bytes : List UInt8 // bytes.length ≤ MAX_FILE}

/-- What is cut at the longest length is a `File`. -/
theorem length_take_max (bytes : List UInt8) : (bytes.take MAX_FILE).length ≤ MAX_FILE :=
  List.length_take_le _ _

/-- The file that is left when `bytes` are written: as many of them as a file can have. -/
def written (bytes : List UInt8) : File :=
  ⟨bytes.take MAX_FILE, length_take_max bytes⟩

/-- What the program finds: the names and their files, the memory of each call of
`compressFile`, and what becomes of a file that is written over while it is read. -/
structure Os extends Names where
  cells : ℕ → ℕ → HuffmanNode
  codeBuffer : ℕ → List Char
  codeBuffer_size : ∀ n, (codeBuffer n).length = MAX_TREE_HT
  torn_huf : List UInt8 → List UInt8
  torn_txt : List UInt8 → ℤ × List UInt8

/-- What `runAutomatedDemo` says in the end: one of two failures, or the outcome of the comparison.
-/
inductive Verdict where
  | compressionFailed
  | decompressionFailed
  | passed
  | failed
deriving DecidableEq

/-- The files, how often `compressFile` has come to its tree, and the verdicts so far. -/
structure World where
  files : Store File
  compressions : ℕ
  verdicts : List (List Char × Verdict)

/-- The file of `name` becomes `bytes`, cut where no more fits. Every name of the same place reads
it from then on. -/
def World.write (os : Os) (w : World) (name : List Char) (bytes : List UInt8) : World :=
  { w with files := Files.write os.toNames w.files name (written bytes) }

/-! ## The program -/

/-- `compressFile` on the disk: nothing happens when the input can not be opened; the tree is built
before the output is, so the memory of the call is used up even when the output can not be
written. -/
def compressFile (os : Os) (w : World) (inputFilename outputFilename : List Char) :
    Option (ℤ × World) :=
  match read os.toNames w.files inputFilename with
  | none => some (-1, w)
  | some input => do
    let (code, out) ← Huffman.compressFile input.val (os.cells w.compressions)
      (os.codeBuffer w.compressions)
    let w := { w with compressions := w.compressions + 1 }
    if os.writable (os.place outputFilename) then
      if os.place outputFilename = os.place inputFilename then
        some (code, w.write os outputFilename (os.torn_huf input.val))
      else
        some (code, w.write os outputFilename out)
    else
      some (-1, w)

/-- `decompressFile` on the disk. The output is opened only once the header has been found right
(`out` is `none` otherwise), so a file that is no archive leaves the output alone. -/
def decompressFile (os : Os) (w : World) (inputFilename outputFilename : List Char) :
    Option (ℤ × World) :=
  match read os.toNames w.files inputFilename with
  | none => some (-1, w)
  | some file => do
    let (code, out) ← Huffman.decompressFile file.val
    match out with
    | none => some (code, w)
    | some out =>
      if os.writable (os.place outputFilename) then
        if os.place outputFilename = os.place inputFilename then
          some ((os.torn_txt file.val).1, w.write os outputFilename (os.torn_txt file.val).2)
        else
          some (code, w.write os outputFilename out)
      else
        some (-1, w)

/-- The arrays for the names, before the program writes to them. -/
structure Arrays where
  hufFile : List Char
  decompFile : List Char
  outHuf : List Char
  outTxt : List Char
  outFilename : List Char
  hufFile_size : hufFile.length = MAX_PATH_LEN
  decompFile_size : decompFile.length = MAX_PATH_LEN
  outHuf_size : outHuf.length = MAX_PATH_LEN + 32
  outTxt_size : outTxt.length = MAX_PATH_LEN + 32
  outFilename_size : outFilename.length = MAX_PATH_LEN + 32

/-- The loop that compares two files byte for byte: they must end at the same time. -/
def compare : List UInt8 → List UInt8 → Bool
  | c1 :: f1, c2 :: f2 => if c1 ≠ c2 then false else compare f1 f2
  | [], [] => true
  | _, _ => false

/-- One round of the demonstration: compress, decompress, compare byte for byte. Each of the two
calls may end it early, with a verdict of its own. -/
def runAutomatedDemo (os : Os) (v : Arrays) (w : World) (testFile : List Char) :
    Option World := do
  let hufFile := cstr (snprintf v.hufFile (testFile ++ ".huf".toList))
  let decompFile := cstr (snprintf v.decompFile (testFile ++ "_restored.txt".toList))
  let (code, w) ← compressFile os w testFile hufFile
  if code ≠ 0 then
    some { w with verdicts := w.verdicts ++ [(testFile, .compressionFailed)] }
  else do
    let (code, w) ← decompressFile os w hufFile decompFile
    if code ≠ 0 then
      some { w with verdicts := w.verdicts ++ [(testFile, .decompressionFailed)] }
    else
      let same :=
        match read os.toNames w.files testFile, read os.toNames w.files decompFile with
        | some f1, some f2 => compare f1.val f2.val
        | _, _ => false
      some { w with verdicts := w.verdicts ++ [(testFile, if same then .passed else .failed)] }

/-- The files of the automated demonstration, by the names the program brings. -/
def testFiles : List (List Char) :=
  ["sample.txt".toList, "test_short.txt".toList, "test_single.txt".toList]

/-- The demonstration on its three files, one after the other. It stops at none of them. -/
def runSuite (os : Os) (v : Arrays) (w : World) : Option World :=
  testFiles.foldlM (runAutomatedDemo os v) w

/-- `trimNewline` once `len` is known. -/
def trimFrom : ℕ → List Char → Option (List Char)
  | 0, str => some str
  | len + 1, str => do
    let c ← str[len]?
    if c = '\n' ∨ c = '\r' then do
      trimFrom len (← store str len NUL)
    else
      some str

/-- `trimNewline`, from the length of the string down: line ends at its end become `NUL`s. -/
def trimNewline (str : List Char) : Option (List Char) := do
  trimFrom (← strlen str) str

/-- What `%d` stores of a number. The library reads a `long`, the nearest one when the number is
out of range, and the low 32 bits of it are the `int`. So the menu goes on with a number that no
`int` holds, and may take it for a choice. -/
def stored_int (n : ℤ) : ℤ :=
  (max (-2 ^ 63) (min n (2 ^ 63 - 1))).bmod (2 ^ 32)

/-- `scanf("%d", &choice)`: what is stored, if there is a number, and the rest of the input. -/
def scanf_int (stdin : List Char) : Option ℤ × List Char :=
  let (negative, s) := sign (stdin.dropWhile isspace)
  let digits := s.takeWhile isdigit
  if digits = [] then
    (none, s)
  else
    let n : ℤ := natVal 10 digits
    (some (stored_int (if negative then -n else n)), s.dropWhile isdigit)

/-- `while (getchar() != '\n');` does not come to an end at the end of the input. -/
def skip_line : List Char → Option (List Char)
  | [] => none
  | c :: stdin => if c = '\n' then some stdin else skip_line stdin

/-- What a turn of the menu is about to do. -/
inductive Command where
  | compress (inFilename outFilename : List Char)
  | decompress (inFilename outFilename : List Char)
  | demo
  | exit
  | nothing
deriving DecidableEq

/-- The two names of a turn. The second is made of the first when its line is empty. -/
def read_names (v : Arrays) (default : List Char → List Char) (stdin : List Char) :
    Option (Option (List Char × List Char) × List Char) :=
  match fgets MAX_PATH_LEN stdin with
  | none => some (none, stdin)
  | some (line, stdin) => do
    let inFilename ← trimNewline (line ++ [NUL])
    match fgets (MAX_PATH_LEN + 32) stdin with
    | none => some (none, stdin)
    | some (line, stdin) => do
      let outFilename ← trimNewline (line ++ [NUL])
      let len ← strlen outFilename
      let outFilename :=
        if len = 0 then snprintf v.outFilename (default (cstr inFilename)) else outFilename
      some (some (cstr inFilename, cstr outFilename), stdin)

/-- A turn of the menu, up to the call it makes. -/
def read_command (v : Arrays) (stdin : List Char) : Option (Command × List Char) := do
  let (choice, stdin) := scanf_int stdin
  let stdin ← skip_line stdin
  if choice = some 1 then do
    let (names, stdin) ← read_names v (fun inFilename => inFilename ++ ".huf".toList) stdin
    some (names.elim .nothing fun p => .compress p.1 p.2, stdin)
  else if choice = some 2 then do
    let (names, stdin) ← read_names v (fun _ => "decompressed.txt".toList) stdin
    some (names.elim .nothing fun p => .decompress p.1 p.2, stdin)
  else if choice = some 3 then
    some (.demo, stdin)
  else if choice = some 4 then
    some (.exit, stdin)
  else
    some (.nothing, stdin)

/-- What a turn does once its line has been read. The results of `compressFile` and
`decompressFile` are not looked at. -/
def run_command (os : Os) (v : Arrays) (w : World) : Command → Option World
  | .compress inFilename outFilename => do
    let (_, w) ← compressFile os w inFilename outFilename
    some w
  | .decompress inFilename outFilename => do
    let (_, w) ← decompressFile os w inFilename outFilename
    some w
  | .demo => runSuite os v w
  | .exit => some w
  | .nothing => some w

/-- One turn of `while (1)`: it ends the loop for the exit and for nothing else. -/
def menu_body (os : Os) (v : Arrays) (s : List Char × World) :
    Option (Pass (List Char × World) World) := do
  let (command, stdin) ← read_command v s.1
  if command = .exit then
    some (.done s.2)
  else do
    some (.next (stdin, ← run_command os v s.2 command))

/-- The interactive menu. At the end of the input a turn has no result, and with it the menu has
none: the program waits for a newline for ever. -/
def menu (os : Os) (v : Arrays) (stdin : List Char) (w : World) : Option World :=
  loop (menu_body os v) (stdin, w)

/-- `main`, with its arguments from `argv[1]` on: without any there is the menu, and otherwise the
first one says what is to be done. -/
def main (os : Os) (v : Arrays) (w : World) (stdin : List Char) :
    List (List Char) → Option (ℤ × World)
  | [] => do
    some (0, ← menu os v stdin w)
  | arg :: args =>
    if arg = "-c".toList ∧ args.length = 2 then
      compressFile os w (args.getD 0 []) (args.getD 1 [])
    else if arg = "-d".toList ∧ args.length = 2 then
      decompressFile os w (args.getD 0 []) (args.getD 1 [])
    else if arg = "--test".toList then do
      some (0, ← runSuite os v w)
    else if args.length = 0 then do
      let outHuf := cstr (snprintf v.outHuf (arg ++ ".huf".toList))
      let outTxt := cstr (snprintf v.outTxt (arg ++ "_restored.txt".toList))
      let (_, w) ← compressFile os w arg outHuf
      let (_, w) ← decompressFile os w outHuf outTxt
      some (0, w)
    else
      some (1, w)

/-! ## One call -/

/-- What is short enough is written as it is. -/
theorem written_val {bytes : List UInt8} (h : bytes.length ≤ MAX_FILE) :
    (written bytes).val = bytes :=
  List.take_of_length_le h

/-- The contents of a file can be written again, all of them. -/
theorem written_of_file (f : File) : written f.val = f :=
  Subtype.ext (written_val f.property)

/-- A file fits the `uint64_t` that counts its bytes in the header. -/
theorem length_lt (f : File) : f.val.length < 2 ^ 64 :=
  Nat.lt_of_le_of_lt f.property (by decide)

/-- A compressed text is a file that can be decompressed, and not much longer. -/
theorem compressed_spec (cells : ℕ → HuffmanNode) {buffer : List Char}
    (hbuffer : buffer.length = MAX_TREE_HT) (input : File) :
    ∃ out, Huffman.compressFile input.val cells buffer = some (0, out)
      ∧ Huffman.decompressFile out = some (0, some input.val)
      ∧ out.length ≤ input.val.length + 332 := by
  have hlen := length_lt input
  -- the empty text is its header alone
  by_cases hne : input.val = []
  · have hrun : Huffman.compressFile input.val cells buffer = some (0, putSize HUF_MAGIC 0 8) := by
      rw [hne, compressFile_nil]
    obtain ⟨hok, hsize, -⟩ := header_putSize (Nat.two_pow_pos 64) []
    rw [List.append_nil] at hok hsize
    refine ⟨_, hrun, ?_, length_le_of_compressFile cells hbuffer hlen hrun⟩
    rw [decompressFile_of_header hok, hsize, decompressBody, if_pos rfl, hne]
  · obtain ⟨t, code, bytes, pad, hrun, -, hcodes, -, hbits⟩ :=
      compressFile_spec cells hbuffer hne hlen
    obtain ⟨hok, hsize, hbody⟩ := header_putSize hlen bytes
    -- the bits behind the header are codewords of the tree, then padding
    have hw : ∀ c ∈ input.val.map (fun b => (b, code b)), c ∈ PrefixTree.codes t := by
      intro c hc
      obtain ⟨b, hb, rfl⟩ := List.mem_map.mp hc
      exact hcodes b hb
    have hdecode := PrefixTree.decode_flatten hw (List.replicate pad false)
    simp only [List.map_map, Function.comp_def, List.length_map, List.map_id'] at hdecode
    rw [List.append_assoc] at hbits
    refine ⟨_, hrun, ?_, length_le_of_compressFile cells hbuffer hlen hrun⟩
    rw [decompressFile_of_header hok, hsize, hbody,
      decompressBody_whole (List.length_pos_iff.mpr hne) hlen hbits, hdecode]

/-- Of every file there is a result. -/
theorem decompressed_isSome (file : List UInt8) :
    ∃ code out, Huffman.decompressFile file = some (code, out) := by
  by_cases hok : HeaderOk file
  · rw [decompressFile_of_header hok]
    rcases Nat.eq_zero_or_pos (storedSize file) with hzero | hpos
    · exact ⟨0, some [], by rw [decompressBody, if_pos hzero]⟩
    · obtain ⟨code, out, hrun, -⟩ := decompressBody_spec hpos (storedSize_lt file) (body file)
      exact ⟨code, some out, hrun⟩
  · exact ⟨-1, none, decompressFile_of_not_header hok⟩

section Calls

variable {os : Os} {w : World} {i o : List Char}

/-- A write changes the place of its name at most. -/
theorem World.write_changed (os : Os) (w : World) (name : List Char) (bytes : List UInt8) :
    Changed {os.place name} w.files (w.write os name bytes).files :=
  Changed.write (Set.mem_singleton _) w.files (written bytes)

/-- **`compressFile`** comes to an end, and writes to its output if to anything. -/
theorem compressFile_changed (os : Os) (w : World) (i o : List Char) :
    ∃ code w', compressFile os w i o = some (code, w')
      ∧ Changed {os.place o} w.files w'.files ∧ w'.verdicts = w.verdicts := by
  rw [compressFile]
  cases hread : read os.toNames w.files i with
  | none => exact ⟨-1, w, rfl, Changed.refl _ _, rfl⟩
  | some input =>
      obtain ⟨out, hrun, -, -⟩ := compressed_spec (os.cells w.compressions)
        (os.codeBuffer_size w.compressions) input
      simp only [hrun, Option.bind_eq_bind, Option.bind_some]
      split_ifs
      · exact ⟨_, _, rfl, World.write_changed os _ o _, rfl⟩
      · exact ⟨_, _, rfl, World.write_changed os _ o _, rfl⟩
      · exact ⟨_, _, rfl, Changed.refl _ _, rfl⟩

/-- **`decompressFile`** comes to an end, whatever is in its input, and writes to its output if to
anything. -/
theorem decompressFile_changed (os : Os) (w : World) (i o : List Char) :
    ∃ code w', decompressFile os w i o = some (code, w')
      ∧ Changed {os.place o} w.files w'.files ∧ w'.verdicts = w.verdicts := by
  rw [decompressFile]
  cases hread : read os.toNames w.files i with
  | none => exact ⟨-1, w, rfl, Changed.refl _ _, rfl⟩
  | some file =>
      obtain ⟨code, out, hrun⟩ := decompressed_isSome file.val
      simp only [hrun, Option.bind_eq_bind, Option.bind_some]
      cases out with
      | none => exact ⟨_, _, rfl, Changed.refl _ _, rfl⟩
      | some out =>
          simp only
          split_ifs
          · exact ⟨_, _, rfl, World.write_changed os _ o _, rfl⟩
          · exact ⟨_, _, rfl, World.write_changed os _ o _, rfl⟩
          · exact ⟨_, _, rfl, Changed.refl _ _, rfl⟩

/-- The file under a name is an archive of `text`. -/
def Archived (os : Os) (w : World) (name : List Char) (text : File) : Prop :=
  ∃ file, read os.toNames w.files name = some file
    ∧ Huffman.decompressFile file.val = some (0, some text.val)

/-- What is compressed is archived, if it is not written over itself. -/
theorem compressFile_archives {text : File} (htext : read os.toNames w.files i = some text)
    (hlen : text.val.length + 332 ≤ MAX_FILE) (hne : os.place o ≠ os.place i)
    (hwritable : os.writable (os.place o) = true) (hreadable : os.readable (os.place o) = true) :
    ∃ w', compressFile os w i o = some (0, w') ∧ Archived os w' o text := by
  obtain ⟨out, hrun, hback, hout⟩ := compressed_spec (os.cells w.compressions)
    (os.codeBuffer_size w.compressions) text
  rw [compressFile, htext]
  simp only [hrun, Option.bind_eq_bind, Option.bind_some, if_pos hwritable, if_neg hne]
  refine ⟨_, rfl, written out, ?_, ?_⟩
  · rw [read_of_readable hreadable]
    exact write_same os.toNames w.files o (written out)
  · rwa [written_val (hout.trans hlen)]

/-- An archive gives the text back, whatever has become of the text, and wherever it is written to.
-/
theorem Archived.restored {text : File} (h : Archived os w i text)
    (hne : os.place o ≠ os.place i) (hwritable : os.writable (os.place o) = true) :
    ∃ w', decompressFile os w i o = some (0, w') ∧ w'.files (os.place o) = some text := by
  obtain ⟨file, hfile, hback⟩ := h
  rw [decompressFile, hfile]
  simp only [hback, Option.bind_eq_bind, Option.bind_some, if_pos hwritable, if_neg hne]
  exact ⟨_, rfl, (write_same os.toNames w.files o _).trans (congrArg some (written_of_file text))⟩

/-- What leaves the place of an archive alone leaves it an archive of its text. Nothing else of the
disk matters to it. -/
theorem Archived.kept {text : File} {w' : World} {P : Set ℕ} (h : Archived os w o text)
    (hchanged : Changed P w.files w'.files) (hp : os.place o ∉ P) : Archived os w' o text := by
  obtain ⟨file, hfile, hback⟩ := h
  exact ⟨file, (hchanged.read_eq hp).trans hfile, hback⟩

end Calls

/-! ## The demonstration -/

/-- The name `runAutomatedDemo` and the menu make of a name for its archive. -/
def archive (testFile : List Char) : List Char :=
  testFile ++ ".huf".toList

/-- The name `runAutomatedDemo` makes of a name for the text of the archive. -/
def restored (testFile : List Char) : List Char :=
  testFile ++ "_restored.txt".toList

/-- A name that the arrays of `runAutomatedDemo` have room for. -/
structure Fits (testFile : List Char) : Prop where
  clean : ∀ c ∈ testFile, c ≠ NUL
  length_lt : testFile.length + 13 < MAX_PATH_LEN

/-- The places `runAutomatedDemo` writes to. -/
def demoPlaces (os : Os) (testFiles : List (List Char)) : Set ℕ :=
  {p | ∃ t ∈ testFiles, p = os.place (archive t) ∨ p = os.place (restored t)}

/-- Nothing is in the way of a demonstration: its files can be written and read, and no two of them
are one. -/
structure Usable (os : Os) (testFile : List Char) : Prop extends Fits testFile where
  archive_writable : os.writable (os.place (archive testFile)) = true
  archive_readable : os.readable (os.place (archive testFile)) = true
  restored_writable : os.writable (os.place (restored testFile)) = true
  restored_readable : os.readable (os.place (restored testFile)) = true
  archive_ne : os.place (archive testFile) ≠ os.place testFile
  restored_ne : os.place (restored testFile) ≠ os.place testFile
  restored_ne_archive : os.place (restored testFile) ≠ os.place (archive testFile)

/-- The comparison of the demonstration accepts equal files. -/
theorem compare_self (f : List UInt8) : compare f f = true := by
  induction f with
  | nil => rfl
  | cons c f ih => rw [compare, if_neg (not_not.mpr rfl), ih]

section Demo

variable {os : Os} {v : Arrays} {w : World} {t : List Char}

/-- A string that has room in its array is what `snprintf` leaves there. -/
theorem cstr_snprintf {dst s : List Char} (hs : ∀ c ∈ s, c ≠ NUL) (h : s.length < dst.length) :
    cstr (snprintf dst s) = s :=
  cstr_of_prefix hs <| snprintf_prefix h

/-- A name with a suffix that has no `NUL` has none. -/
theorem append_ne_nul {s : List Char} (ht : ∀ c ∈ t, c ≠ NUL) (hs : ∀ c ∈ s, c ≠ NUL) :
    ∀ c ∈ t ++ s, c ≠ NUL := by
  intro c hc
  rcases List.mem_append.mp hc with hc | hc
  · exact ht c hc
  · exact hs c hc

/-- `.huf` has no `NUL`, so the name of an archive is a string when the name of its text is. -/
theorem archive_ne_nul (ht : ∀ c ∈ t, c ≠ NUL) : ∀ c ∈ archive t, c ≠ NUL :=
  append_ne_nul ht (by simp [NUL])

/-- `_restored.txt` has no `NUL` either. -/
theorem restored_ne_nul (ht : ∀ c ∈ t, c ≠ NUL) : ∀ c ∈ restored t, c ≠ NUL :=
  append_ne_nul ht (by simp [NUL])

/-- `.huf` is four characters. -/
theorem length_archive (t : List Char) : (archive t).length = t.length + 4 := by
  rw [archive, List.length_append]
  rfl

/-- `_restored.txt` is thirteen characters, and leads to the longest of the names. -/
theorem length_restored (t : List Char) : (restored t).length = t.length + 13 := by
  rw [restored, List.length_append]
  rfl

/-- The name of the archive is written whole: a name that fits leaves room for what is added to it.
-/
theorem Fits.hufFile (h : Fits t) (v : Arrays) :
    cstr (snprintf v.hufFile (t ++ ".huf".toList)) = archive t := by
  apply cstr_snprintf (archive_ne_nul h.clean)
  have := h.length_lt
  rw [v.hufFile_size, length_archive]
  omega

/-- The name of the restored text is written whole. -/
theorem Fits.decompFile (h : Fits t) (v : Arrays) :
    cstr (snprintf v.decompFile (t ++ "_restored.txt".toList)) = restored t := by
  apply cstr_snprintf (restored_ne_nul h.clean)
  have := h.length_lt
  rw [v.decompFile_size, length_restored]
  omega

/-- **`runAutomatedDemo`** comes to an end, and writes to its two files if to anything. -/
theorem runAutomatedDemo_changed (h : Fits t) (os : Os) (v : Arrays) (w : World) :
    ∃ w', runAutomatedDemo os v w t = some w' ∧ Changed (demoPlaces os [t]) w.files w'.files := by
  have hplaces : demoPlaces os [t] = {os.place (archive t)} ∪ {os.place (restored t)} := by
    ext p
    simp [demoPlaces, or_comm]
  rw [hplaces]
  obtain ⟨code, w₁, hrun₁, hchanged₁, -⟩ := compressFile_changed os w t (archive t)
  obtain ⟨code', w₂, hrun₂, hchanged₂, -⟩ :=
    decompressFile_changed os w₁ (archive t) (restored t)
  simp only [runAutomatedDemo, h.hufFile v, h.decompFile v, hrun₁, hrun₂, Option.bind_eq_bind,
    Option.bind_some]
  split_ifs
  · exact ⟨_, rfl, hchanged₁.mono Set.subset_union_left⟩
  all_goals exact ⟨_, rfl, hchanged₁.trans_union hchanged₂⟩

/-- What a demonstration says of a file: it passes if it can be read, and fails at its compression
otherwise. -/
def verdict (os : Os) (w : World) (t : List Char) : Verdict :=
  if (read os.toNames w.files t).isSome then .passed else .compressionFailed

/-- **The verdict of a demonstration** is the one its file deserves: passed if it can be read, and
a failed compression if it can not. The comparison finds a difference for no text. -/
theorem runAutomatedDemo_verdict (h : Usable os t) (v : Arrays)
    (hsmall : ∀ text, read os.toNames w.files t = some text → text.val.length + 332 ≤ MAX_FILE) :
    ∃ w', runAutomatedDemo os v w t = some w'
      ∧ w'.verdicts = w.verdicts ++ [(t, verdict os w t)] := by
  cases hread : read os.toNames w.files t with
  | none =>
      have hrun : compressFile os w t (archive t) = some (-1, w) := by
        rw [compressFile, hread]
      simp only [runAutomatedDemo, h.hufFile v, hrun, Option.bind_eq_bind, Option.bind_some]
      refine ⟨_, if_pos (by decide), ?_⟩
      rw [verdict, hread]
      rfl
  | some text =>
      obtain ⟨w₁, hrun₁, harchived⟩ := compressFile_archives hread (hsmall text hread)
        h.archive_ne h.archive_writable h.archive_readable
      obtain ⟨w₂, hrun₂, hrestored⟩ := harchived.restored h.restored_ne_archive h.restored_writable
      obtain ⟨code, w₁', hrun₁', hchanged₁, hverdicts₁⟩ := compressFile_changed os w t (archive t)
      obtain ⟨code', w₂', hrun₂', hchanged₂, hverdicts₂⟩ :=
        decompressFile_changed os w₁ (archive t) (restored t)
      obtain ⟨-, rfl⟩ := Prod.mk.inj (Option.some.inj (hrun₁.symm.trans hrun₁'))
      obtain ⟨-, rfl⟩ := Prod.mk.inj (Option.some.inj (hrun₂.symm.trans hrun₂'))
      -- the text is where it was, and a second time under the name of the output
      have horiginal : read os.toNames w₂.files t = some text := by
        rw [hchanged₂.read_eq fun hmem => h.restored_ne hmem.symm,
          hchanged₁.read_eq fun hmem => h.archive_ne hmem.symm, hread]
      have hcopy : read os.toNames w₂.files (restored t) = some text := by
        rw [read_of_readable h.restored_readable, hrestored]
      simp only [runAutomatedDemo, h.hufFile v, h.decompFile v, hrun₁, hrun₂,
        Option.bind_eq_bind, Option.bind_some, horiginal, hcopy, compare_self]
      refine ⟨_, (if_neg (by decide)).trans (if_neg (by decide)), ?_⟩
      rw [verdict, hread, hverdicts₂, hverdicts₁]
      rfl

/-- The places of two rows of demonstrations. -/
theorem demoPlaces_append (os : Os) (ts ts' : List (List Char)) :
    demoPlaces os (ts ++ ts') = demoPlaces os ts ∪ demoPlaces os ts' := by
  ext p
  simp [demoPlaces, or_and_right, exists_or]

theorem demoPlaces_cons (os : Os) (t : List Char) (ts : List (List Char)) :
    demoPlaces os (t :: ts) = demoPlaces os [t] ∪ demoPlaces os ts :=
  demoPlaces_append os [t] ts

/-- A row of demonstrations comes to an end, and nothing but the files it names is changed by it.
-/
theorem demos_changed {ts : List (List Char)} (hfits : ∀ t ∈ ts, Fits t) (os : Os) (v : Arrays)
    (w : World) :
    ∃ w', ts.foldlM (runAutomatedDemo os v) w = some w'
      ∧ Changed (demoPlaces os ts) w.files w'.files := by
  refine foldlM_spec (fun done (w' : World) => Changed (demoPlaces os done) w.files w'.files)
    (Changed.refl _ _) ?_
  intro done t w₁ ht hdone
  obtain ⟨w', hrun, hchanged⟩ := runAutomatedDemo_changed (hfits t ht) os v w₁
  rw [demoPlaces_append]
  exact ⟨w', hrun, hdone.trans_union hchanged⟩

/-- Each demonstration gives the verdict its file deserves, if none writes to the file of
another. -/
theorem demos_verdicts {ts : List (List Char)} (husable : ∀ t ∈ ts, Usable os t)
    (hapart : ∀ t ∈ ts, os.place t ∉ demoPlaces os ts) (v : Arrays)
    (hsmall : ∀ t ∈ ts, ∀ text, read os.toNames w.files t = some text →
      text.val.length + 332 ≤ MAX_FILE) :
    ∃ w', ts.foldlM (runAutomatedDemo os v) w = some w'
      ∧ w'.verdicts = w.verdicts ++ ts.map fun t => (t, verdict os w t) := by
  induction ts generalizing w with
  | nil => exact ⟨w, rfl, (List.append_nil _).symm⟩
  | cons t ts ih =>
      obtain ⟨w₁, hrun, hverdicts⟩ := runAutomatedDemo_verdict (husable t List.mem_cons_self) v
        (hsmall t List.mem_cons_self)
      obtain ⟨w₁', hrun', hchanged⟩ :=
        runAutomatedDemo_changed (husable t List.mem_cons_self).toFits os v w
      obtain rfl := Option.some.inj (hrun.symm.trans hrun')
      -- the files of the others are as before
      have hsame : ∀ t' ∈ ts, read os.toNames w₁.files t' = read os.toNames w.files t' := by
        intro t' ht'
        apply hchanged.read_eq
        intro hmem
        apply hapart t' (List.mem_cons_of_mem t ht')
        rw [demoPlaces_cons]
        exact Set.mem_union_left _ hmem
      obtain ⟨w', hrest, hverdicts'⟩ := ih (fun t' ht' => husable t' (List.mem_cons_of_mem t ht'))
        (fun t' ht' hmem => hapart t' (List.mem_cons_of_mem t ht') (by
          rw [demoPlaces_cons]
          exact Set.mem_union_right _ hmem))
        (fun t' ht' text htext => hsmall t' (List.mem_cons_of_mem t ht') text
          ((hsame t' ht').symm.trans htext))
      refine ⟨w', by rw [List.foldlM_cons, hrun, Option.bind_eq_bind, Option.bind_some, hrest], ?_⟩
      have hmap : (ts.map fun t' => (t', verdict os w₁ t'))
          = ts.map fun t' => (t', verdict os w t') :=
        List.map_congr_left fun t' ht' => by rw [verdict, hsame t' ht', verdict]
      rw [hverdicts', hverdicts, hmap, List.append_assoc, List.map_cons, List.singleton_append]

/-- The three names of the source are short enough for the arrays of `runAutomatedDemo`. -/
theorem fits_of_mem_testFiles (h : t ∈ testFiles) : Fits t := by
  simp only [testFiles, List.mem_cons, List.not_mem_nil, or_false] at h
  rcases h with rfl | rfl | rfl
  all_goals exact ⟨by simp [NUL], by decide⟩

end Demo

/-! ## Commands -/

/-- The places a command writes to, if to any. Whether it does depends on the files; it never
writes elsewhere. -/
def places (os : Os) : Command → Set ℕ
  | .compress _ outFilename => {os.place outFilename}
  | .decompress _ outFilename => {os.place outFilename}
  | .demo => demoPlaces os testFiles
  | .exit => ∅
  | .nothing => ∅

/-- The places a row of commands may write to. -/
def placesOf (os : Os) (cs : List Command) : Set ℕ :=
  {p | ∃ c ∈ cs, p ∈ places os c}

/-- One more command, and its place. -/
theorem placesOf_snoc (os : Os) (cs : List Command) (c : Command) :
    placesOf os (cs ++ [c]) = placesOf os cs ∪ places os c := by
  ext p
  simp [placesOf, or_and_right, exists_or]

/-- The commands of a session, one after the other on the same files. -/
def runCommands (os : Os) (v : Arrays) (w : World) (cs : List Command) : Option World :=
  cs.foldlM (run_command os v) w

section Commands

variable {os : Os} {v : Arrays} {w : World}

/-- **A command** comes to an end, whatever the files are. -/
theorem run_command_changed (os : Os) (v : Arrays) (w : World) (c : Command) :
    ∃ w', run_command os v w c = some w' ∧ Changed (places os c) w.files w'.files := by
  cases c with
  | compress i o =>
      obtain ⟨code, w', hrun, hchanged, -⟩ := compressFile_changed os w i o
      exact ⟨w', by rw [run_command, hrun]; rfl, hchanged⟩
  | decompress i o =>
      obtain ⟨code, w', hrun, hchanged, -⟩ := decompressFile_changed os w i o
      exact ⟨w', by rw [run_command, hrun]; rfl, hchanged⟩
  | demo => exact demos_changed (fun t ht => fits_of_mem_testFiles ht) os v w
  | exit => exact ⟨w, rfl, Changed.refl _ _⟩
  | nothing => exact ⟨w, rfl, Changed.refl _ _⟩

/-- A session comes to an end and changes the places of its commands at most. It is a fold, so its
rule is the one of the fold, with the commands done so far. -/
theorem runCommands_changed (os : Os) (v : Arrays) (w : World) (cs : List Command) :
    ∃ w', runCommands os v w cs = some w' ∧ Changed (placesOf os cs) w.files w'.files := by
  refine foldlM_spec (fun done (w' : World) => Changed (placesOf os done) w.files w'.files)
    (Changed.refl _ _) ?_
  intro done c w₁ _ hdone
  obtain ⟨w', hrun, hchanged⟩ := run_command_changed os v w₁ c
  rw [placesOf_snoc]
  exact ⟨w', hrun, hdone.trans_union hchanged⟩

theorem runCommands_append (os : Os) (v : Arrays) (w : World) (cs cs' : List Command) :
    runCommands os v w (cs ++ cs')
      = (runCommands os v w cs).bind fun w => runCommands os v w cs' :=
  List.foldlM_append

theorem runCommands_cons (os : Os) (v : Arrays) (w : World) (c : Command) (cs : List Command) :
    runCommands os v w (c :: cs) = (run_command os v w c).bind fun w => runCommands os v w cs :=
  List.foldlM_cons

end Commands

/-! ## The menu -/

/-- The commands the menu reads before it exits, of the console alone. -/
def commands_body (v : Arrays) (s : List Char × List Command) :
    Option (Pass (List Char × List Command) (List Command)) := do
  let (command, stdin) ← read_command v s.1
  if command = .exit then
    some (.done s.2)
  else
    some (.next (stdin, s.2 ++ [command]))

/-- The commands of a console, `none` if they come to no exit. No file has a part in it. -/
def commands (v : Arrays) (stdin : List Char) : Option (List Command) :=
  loop (commands_body v) (stdin, [])

section Menu

variable {os : Os} {v : Arrays} {stdin rest : List Char}

/-- Reading a sign takes a character at most. -/
theorem sign_suffix (s : List Char) : (sign s).2 <:+ s := by
  cases s with
  | nil => exact List.suffix_refl _
  | cons c s =>
      rw [sign]
      split_ifs
      · exact List.suffix_cons c s
      · exact List.suffix_cons c s
      · exact List.suffix_refl _

/-- What is left in front of the digits is a rest of the input. -/
theorem unsigned_suffix (stdin : List Char) : (sign (stdin.dropWhile isspace)).2 <:+ stdin :=
  (sign_suffix _).trans (List.dropWhile_suffix _)

/-- `scanf` takes from the front of the input and puts nothing back. -/
theorem scanf_int_suffix (stdin : List Char) : (scanf_int stdin).2 <:+ stdin := by
  rw [scanf_int]
  dsimp only
  split_ifs
  · exact unsigned_suffix stdin
  all_goals exact (List.dropWhile_suffix _).trans (unsigned_suffix stdin)

/-- The loop of `getchar` ends behind the first newline, when there is one. -/
theorem skip_line_spec (h : skip_line stdin = some rest) :
    ∃ line, stdin = line ++ '\n' :: rest := by
  induction stdin with
  | nil => exact absurd h (Option.some_ne_none _).symm
  | cons c stdin ih =>
      rw [skip_line] at h
      split_ifs at h with hc
      · exact ⟨[], by rw [hc, Option.some.inj h, List.nil_append]⟩
      · obtain ⟨line, rfl⟩ := ih h
        exact ⟨c :: line, rfl⟩

theorem fgets_suffix {size : ℕ} {line : List Char} (h : fgets size stdin = some (line, rest)) :
    rest <:+ stdin :=
  ⟨line, (fgets_spec h).1⟩

/-- Reading the two names takes from the front of the input. -/
theorem read_names_suffix {default : List Char → List Char}
    {names : Option (List Char × List Char)}
    (h : read_names v default stdin = some (names, rest)) : rest <:+ stdin := by
  rw [read_names] at h
  -- no first name: the command gives up
  cases hfirst : fgets MAX_PATH_LEN stdin with
  | none =>
      rw [hfirst] at h
      obtain ⟨-, rfl⟩ := Prod.mk.inj (Option.some.inj h)
      exact List.suffix_refl _
  | some p =>
      have hsuffix := fgets_suffix hfirst
      rw [hfirst] at h
      obtain ⟨inFilename, -, h⟩ := Option.bind_eq_some_iff.mp h
      -- the end of the input stands for the default name
      cases hsecond : fgets (MAX_PATH_LEN + 32) p.2 with
      | none =>
          simp only [hsecond] at h
          obtain ⟨-, rfl⟩ := Prod.mk.inj (Option.some.inj h)
          exact hsuffix
      | some q =>
          simp only [hsecond] at h
          obtain ⟨outFilename, -, h⟩ := Option.bind_eq_some_iff.mp h
          obtain ⟨len, -, h⟩ := Option.bind_eq_some_iff.mp h
          obtain ⟨-, rfl⟩ := Prod.mk.inj (Option.some.inj h)
          exact (fgets_suffix hsecond).trans hsuffix

/-- Every turn takes a line from the console, or a part of it, so the menu is bounded by its input.
-/
theorem read_command_suffix {c : Command} (h : read_command v stdin = some (c, rest)) :
    rest <:+ stdin ∧ rest.length < stdin.length := by
  have hscanned := scanf_int_suffix stdin
  rw [read_command] at h
  generalize scanf_int stdin = scanned at h hscanned
  obtain ⟨choice, s⟩ := scanned
  obtain ⟨s', hskip, h⟩ := Option.bind_eq_some_iff.mp h
  obtain ⟨line, hline⟩ := skip_line_spec hskip
  -- both file commands read two names, the others none
  have hrest : rest <:+ s' := by
    split_ifs at h
    · obtain ⟨p, hnames, h⟩ := Option.bind_eq_some_iff.mp h
      obtain ⟨-, rfl⟩ := Prod.mk.inj (Option.some.inj h)
      exact read_names_suffix hnames
    · obtain ⟨p, hnames, h⟩ := Option.bind_eq_some_iff.mp h
      obtain ⟨-, rfl⟩ := Prod.mk.inj (Option.some.inj h)
      exact read_names_suffix hnames
    all_goals
      obtain ⟨-, rfl⟩ := Prod.mk.inj (Option.some.inj h)
      exact List.suffix_refl _
  -- the rest of the line is thrown away, its end included: this is the byte that is gone
  have hskipped : s' <:+ s := ⟨line ++ ['\n'], by simp [hline]⟩
  refine ⟨hrest.trans (hskipped.trans hscanned), ?_⟩
  have hlen := hscanned.length_le
  have := hrest.length_le
  rw [hline, List.length_append, List.length_cons] at hlen
  omega

/-- The last digit counts as it is, the others ten times. -/
theorem natVal_concat (digits : List Char) (c : Char) :
    natVal 10 (digits ++ [c]) = 10 * natVal 10 digits + digitVal c := by
  rw [natVal, List.foldl_append, List.foldl_cons, List.foldl_nil, natVal]

theorem digitVal_le {c : Char} (hc : isdigit c = true) : digitVal c ≤ 9 := by
  rw [digitVal, if_pos hc]
  rw [isdigit, decide_eq_true_iff] at hc
  have h9 : '9'.toNat = 57 := rfl
  have h0 : '0'.toNat = 48 := rfl
  omega

/-- A number of `n` digits is below `10 ^ n`. Nine digits are below `2 ^ 31`, so `%d` stores the
number itself. -/
theorem natVal_lt {digits : List Char} (hdigit : ∀ c ∈ digits, isdigit c = true) :
    natVal 10 digits < 10 ^ digits.length := by
  induction digits using List.reverseRecOn with
  | nil => exact Nat.one_pos
  | append_singleton digits c ih =>
      have hlt := ih fun c hc => hdigit c (List.mem_append_left _ hc)
      have hle := digitVal_le (hdigit c (by simp))
      rw [natVal_concat, List.length_append, List.length_singleton, Nat.pow_succ]
      omega

/-- A number that is four ends in the digit: only zeros can stand in front of it. -/
theorem mem_of_natVal {digits : List Char} (hdigit : ∀ c ∈ digits, isdigit c = true)
    (h : natVal 10 digits = 4) : '4' ∈ digits := by
  rcases List.eq_nil_or_concat digits with rfl | ⟨init, c, rfl⟩
  · exact absurd h (by decide)
  · rw [List.concat_eq_append] at hdigit h ⊢
    have hc := hdigit c (by simp)
    have hle := digitVal_le hc
    rw [natVal_concat] at h
    have hval : digitVal c = 4 := by omega
    rw [digitVal, if_pos hc] at hval
    have h4 : c = '4' := by
      apply Char.toNat_inj.mp
      have h0 : '0'.toNat = 48 := rfl
      have h4 : '4'.toNat = 52 := rfl
      omega
    rw [h4]
    simp

/-- What an `int` holds is stored as it is; only beyond that does the cut to 32 bits show. -/
theorem stored_int_of_small {n : ℤ} (hlo : -2 ^ 31 ≤ n) (hhi : n < 2 ^ 31) : stored_int n = n := by
  rw [stored_int, min_eq_left (by omega), max_eq_right (by omega), Int.bmod_eq_of_le]
  · omega
  · omega

/-- No number on the console has more than nine digits, so that an `int` holds each. -/
def ShortNumbers (stdin : List Char) : Prop :=
  ∀ digits, digits <:+: stdin → (∀ c ∈ digits, isdigit c = true) → digits.length ≤ 9

/-- A turn leaves a rest of the console, which has no longer numbers. -/
theorem ShortNumbers.suffix (hshort : ShortNumbers stdin) (h : rest <:+ stdin) :
    ShortNumbers rest :=
  fun digits hpart => hshort digits (hpart.trans h.isInfix)

/-- The choice `4` is read from a digit `4`, unless a longer number has wrapped around to it. -/
theorem mem_of_scanf_int (hshort : ShortNumbers stdin) (h : (scanf_int stdin).1 = some 4) :
    '4' ∈ stdin := by
  have hsuffix := unsigned_suffix stdin
  rw [scanf_int] at h
  dsimp only at h
  generalize hs : (sign (stdin.dropWhile isspace)).2 = s at h hsuffix
  have hdigit : ∀ c ∈ s.takeWhile isdigit, isdigit c = true :=
    fun c hc => List.all_eq_true.mp List.all_takeWhile c hc
  -- the number is too short to wrap around
  have hlen := hshort _ ((List.takeWhile_prefix isdigit).isInfix.trans hsuffix.isInfix) hdigit
  have hlt := (natVal_lt hdigit).trans_le (Nat.pow_le_pow_right (by decide : 0 < 10) hlen)
  have hfour : natVal 10 (s.takeWhile isdigit) = 4 := by
    split_ifs at h with hnone hneg
    all_goals
      have hval := Option.some.inj h
      rw [stored_int_of_small (by omega) (by omega)] at hval
      omega
  exact hsuffix.mem ((List.takeWhile_subset _) (mem_of_natVal hdigit hfour))

/-- A turn that chooses the exit has read the digit. -/
theorem mem_of_read_command (hshort : ShortNumbers stdin)
    (h : read_command v stdin = some (.exit, rest)) : '4' ∈ stdin := by
  have hfour := mem_of_scanf_int hshort
  rw [read_command] at h
  generalize scanf_int stdin = scanned at h hfour
  obtain ⟨choice, s⟩ := scanned
  obtain ⟨s', -, h⟩ := Option.bind_eq_some_iff.mp h
  split_ifs at h with h1 h2 h3 h4
  · obtain ⟨⟨names, s''⟩, -, h⟩ := Option.bind_eq_some_iff.mp h
    cases names <;> exact absurd h (by simp)
  · obtain ⟨⟨names, s''⟩, -, h⟩ := Option.bind_eq_some_iff.mp h
    cases names <;> exact absurd h (by simp)
  · exact absurd h (by simp)
  · exact hfour h4
  · exact absurd h (by simp)

/-- Without the digit the turns come to no exit, unless a number wraps around. -/
theorem mem_of_commands {cs : List Command} (hshort : ShortNumbers stdin)
    (h : commands v stdin = some cs) : '4' ∈ stdin := by
  refine loop_inv (fun s => s.1 <:+ stdin) (fun _ => '4' ∈ stdin) ?_ ?_ (List.suffix_refl stdin) h
  · intro s s' hs hpass
    obtain ⟨⟨c, rest⟩, hread, hpass⟩ := Option.bind_eq_some_iff.mp hpass
    simp only at hpass
    split_ifs at hpass
    · exact absurd hpass (by simp)
    · rw [← Pass.next.inj (Option.some.inj hpass)]
      exact (read_command_suffix hread).1.trans hs
  · intro s cs' hs hpass
    obtain ⟨⟨c, rest⟩, hread, hpass⟩ := Option.bind_eq_some_iff.mp hpass
    simp only at hpass
    split_ifs at hpass with hexit
    · exact hs.mem (mem_of_read_command (hshort.suffix hs) (hexit ▸ hread))
    · exact absurd hpass (by simp)

/-- **The menu** does what its commands do, one after the other. -/
theorem menu_eq (os : Os) (v : Arrays) (stdin : List Char) (w : World) :
    menu os v stdin w = (commands v stdin).bind (runCommands os v w) := by
  -- the menu is at `w'` when the commands so far have led there
  have hgen : ∀ n stdin w' cs, stdin.length = n → runCommands os v w cs = some w' →
      loop (menu_body os v) (stdin, w')
        = (loop (commands_body v) (stdin, cs)).bind (runCommands os v w) := by
    intro n
    induction n using Nat.strong_induction_on with
    | _ n ih =>
        intro stdin w' cs hn hcs
        -- a turn that does not end stops both
        cases hread : read_command v stdin with
        | none =>
            have hmenu : menu_body os v (stdin, w') = none := by rw [menu_body, hread]; rfl
            have hcommands : commands_body v (stdin, cs) = none := by
              rw [commands_body, hread]; rfl
            rw [loop_none hmenu, loop_none hcommands]
            rfl
        | some p =>
            obtain ⟨c, rest⟩ := p
            -- the exit ends both
            by_cases hexit : c = .exit
            · have hmenu : menu_body os v (stdin, w') = some (.done w') := by
                rw [menu_body, hread, hexit]; rfl
              have hcommands : commands_body v (stdin, cs) = some (.done cs) := by
                rw [commands_body, hread, hexit]; rfl
              rw [loop_done hmenu, loop_done hcommands, Option.bind_some, hcs]
            · obtain ⟨w'', hrun, -⟩ := run_command_changed os v w' c
              have hmenu : menu_body os v (stdin, w') = some (.next (rest, w'')) := by
                simp only [menu_body, hread, hrun, Option.bind_eq_bind, Option.bind_some,
                  if_neg hexit]
              have hcommands : commands_body v (stdin, cs) = some (.next (rest, cs ++ [c])) := by
                simp only [commands_body, hread, Option.bind_eq_bind, Option.bind_some,
                  if_neg hexit]
              -- any other command is a turn of each, and less input is left
              rw [loop_next hmenu, loop_next hcommands]
              apply ih rest.length (hn ▸ (read_command_suffix hread).2) rest w'' (cs ++ [c]) rfl
              rw [runCommands_append, hcs, Option.bind_some, runCommands_cons, hrun,
                Option.bind_some]
              rfl
  exact hgen stdin.length stdin w [] rfl rfl

end Menu

/-! ## Runs of the program -/

/-- A local array of zeros has its length. -/
theorem length_zeros (n : ℕ) : (List.replicate n NUL).length = n :=
  List.length_replicate

/-- Arrays with nothing but `NUL`s in them. -/
def zeros : Arrays where
  hufFile := List.replicate MAX_PATH_LEN NUL
  decompFile := List.replicate MAX_PATH_LEN NUL
  outHuf := List.replicate (MAX_PATH_LEN + 32) NUL
  outTxt := List.replicate (MAX_PATH_LEN + 32) NUL
  outFilename := List.replicate (MAX_PATH_LEN + 32) NUL
  hufFile_size := length_zeros _
  decompFile_size := length_zeros _
  outHuf_size := length_zeros _
  outTxt_size := length_zeros _
  outFilename_size := length_zeros _

/-- A machine on which the given names stand for different files, and all can be opened. -/
def machine (names : List (List Char)) : Os where
  place := fun name => names.idxOf name
  readable := fun _ => true
  writable := fun _ => true
  cells := fun _ _ => .NULL
  codeBuffer := fun _ => List.replicate MAX_TREE_HT NUL
  codeBuffer_size := fun _ => length_zeros MAX_TREE_HT
  torn_huf := fun _ => []
  torn_txt := fun _ => (0, [])

/-- The given files, at one place after the other. -/
def world (files : List (List UInt8)) : World where
  files := fun p => (files[p]?).map written
  compressions := 0
  verdicts := []

/-- `a` is compressed under the name of the menu, written over, and restored as `c`. -/
def turns : List Char :=
  "1\na\n\n1\nb\na\n2\na.huf\nc\n4\n".toList

/-- What the menu reads from `turns`: the empty line gives the archive its default name. -/
theorem commands_turns : commands zeros turns
    = some [.compress "a".toList "a.huf".toList, .compress "b".toList "a".toList,
        .decompress "a.huf".toList "c".toList] := by
  rw [commands, loop_eq_loopN 5 (by decide +kernel)]
  decide +kernel

section Main

variable {os : Os} {v : Arrays} {w w₁ : World} {stdin : List Char}

/-- `main` without arguments is a matter of the console first and of the files then. -/
theorem main_menu (os : Os) (v : Arrays) (w : World) (stdin : List Char) :
    main os v w stdin []
      = (commands v stdin).bind fun cs => (runCommands os v w cs).map fun w' => (0, w') := by
  rw [main, menu_eq]
  cases commands v stdin with
  | none => rfl
  | some cs =>
      cases hrun : runCommands os v w cs with
      | none => simp [hrun]
      | some w' => simp [hrun]

/-- **It is the console that decides.** Whatever the files are, the menu ends if the turns read
from the console come to the exit, and only then. Without a `4` on the console, and without a
number so long that it may wrap around to one, it waits at the end of the input for ever. When
it ends it has run the commands of these turns one after the other, no file is gone, and only
files they name as outputs are changed. -/
theorem menu_ends_iff (os : Os) (v : Arrays) (w : World) (stdin : List Char) :
    (main os v w stdin [] = none ↔ commands v stdin = none)
      ∧ ('4' ∉ stdin → ShortNumbers stdin → main os v w stdin [] = none)
      ∧ ∀ cs, commands v stdin = some cs → ∃ w', main os v w stdin [] = some (0, w')
        ∧ runCommands os v w cs = some w' ∧ Changed (placesOf os cs) w.files w'.files := by
  rw [main_menu]
  cases hcs : commands v stdin with
  -- the console does not come to the exit
  | none =>
      exact ⟨iff_of_true rfl rfl, fun _ _ => rfl,
        fun cs hsome => absurd hsome (Option.some_ne_none cs).symm⟩
  -- it does, and the commands can always be run
  | some cs =>
      obtain ⟨w', hrun, hchanged⟩ := runCommands_changed os v w cs
      have hmain : ((some cs).bind fun cs => (runCommands os v w cs).map fun w' => ((0 : ℤ), w'))
          = some (0, w') := by
        rw [Option.bind_some, hrun]
        rfl
      refine ⟨iff_of_false ?_ (Option.some_ne_none cs),
        fun hmem hshort => absurd (mem_of_commands hshort hcs) hmem, fun cs' hcs' => ?_⟩
      · rw [hmain]
        exact Option.some_ne_none _
      · obtain rfl := Option.some.inj hcs'
        exact ⟨w', hmain, hrun, hchanged⟩

/-- **An archive outlives its text.** In a session that reaches its exit, what the menu compresses
at some time, it restores at any later time, under whatever names and whatever has become of the
text in the meantime, unless a command has written over the archive, or writes over the restored
text later. -/
theorem archive_restored {pre mid post : List Command} {i o o' x : List Char} {text : File}
    (hread : commands v stdin
      = some (pre ++ .compress i o :: (mid ++ .decompress o' x :: post)))
    (hpre : runCommands os v w pre = some w₁)
    (htext : read os.toNames w₁.files i = some text) (hlen : text.val.length + 332 ≤ MAX_FILE)
    (ho : os.place o ≠ os.place i) (ho' : os.place o' = os.place o)
    (hx : os.place x ≠ os.place o) (hwritable : os.writable (os.place o) = true)
    (hreadable : os.readable (os.place o) = true) (hwritable' : os.writable (os.place x) = true)
    (hmid : os.place o ∉ placesOf os mid) (hpost : os.place x ∉ placesOf os post) :
    ∃ w', main os v w stdin [] = some (0, w') ∧ w'.files (os.place x) = some text := by
  obtain ⟨w₂, hcompress, harchived⟩ := compressFile_archives htext hlen ho hwritable hreadable
  -- the commands between do not write to the archive
  obtain ⟨w₃, hrun₃, hchanged₃⟩ := runCommands_changed os v w₂ mid
  -- so it is there under the other name too, which names the same file
  have harchived₃ : Archived os w₃ o' text := by
    obtain ⟨file, hfile, hback⟩ := harchived.kept hchanged₃ hmid
    refine ⟨file, ?_, hback⟩
    rw [Files.read, ho']
    exact hfile
  obtain ⟨w₄, hdecompress, hrestored⟩ :=
    harchived₃.restored (show os.place x ≠ os.place o' by rwa [ho']) hwritable'
  -- and the commands after it leave the restored text alone
  obtain ⟨w', hrun', hchanged'⟩ := runCommands_changed os v w₄ post
  refine ⟨w', ?_, (hchanged'.kept _ hpost).trans hrestored⟩
  rw [main_menu, hread, Option.bind_some, runCommands_append, hpre, Option.bind_some,
    runCommands_cons, run_command, hcompress]
  simp only [Option.bind_eq_bind, Option.bind_some]
  rw [runCommands_append, hrun₃, Option.bind_some, runCommands_cons, run_command, hdecompress]
  simp only [Option.bind_eq_bind, Option.bind_some]
  rw [hrun']
  rfl

theorem archive_restored_turns :
    ∃ w', main (machine ["a".toList, "b".toList, "a.huf".toList, "c".toList]) zeros
        (world [[97, 97, 98], [98]]) turns [] = some (0, w')
      ∧ w'.files 3 = some (written [97, 97, 98]) := by
  refine @archive_restored (machine ["a".toList, "b".toList, "a.huf".toList, "c".toList]) zeros
    (world [[97, 97, 98], [98]]) _ turns [] [.compress "b".toList "a".toList] [] "a".toList
    "a.huf".toList "a.huf".toList "c".toList (written [97, 97, 98]) commands_turns rfl rfl ?_
    (by decide) rfl (by decide) rfl rfl rfl ?_ ?_
  · rw [written_val (by decide)]
    decide
  · rintro ⟨c, hc, hp⟩
    rw [List.mem_singleton.mp hc] at hp
    exact absurd hp (by decide : (2 : ℕ) ≠ 0)
  · rintro ⟨c, hc, hp⟩
    exact absurd hc List.not_mem_nil

/-- **The self test.** Each of the three files that can be read is compressed, restored and
found the same, and of the others this is said; no file is gone, and no other file than the
six outputs is changed. -/
theorem self_test (husable : ∀ t ∈ testFiles, Usable os t)
    (hapart : ∀ t ∈ testFiles, os.place t ∉ demoPlaces os testFiles)
    (hsmall : ∀ t ∈ testFiles, ∀ text, read os.toNames w.files t = some text →
      text.val.length + 332 ≤ MAX_FILE) :
    ∃ w', main os v w stdin ["--test".toList] = some (0, w')
      ∧ w'.verdicts = w.verdicts ++ testFiles.map (fun t => (t, verdict os w t))
      ∧ Changed (demoPlaces os testFiles) w.files w'.files := by
  obtain ⟨w', hrun, hverdicts⟩ := demos_verdicts husable hapart v hsmall
  obtain ⟨w'', hrun', hchanged⟩ :=
    demos_changed (fun t ht => fits_of_mem_testFiles ht) os v w
  obtain rfl := Option.some.inj (hrun.symm.trans hrun')
  refine ⟨w', ?_, hverdicts, hchanged⟩
  rw [main, if_neg (by decide), if_neg (by decide), if_pos rfl, runSuite, hrun]
  rfl

/-- The names of the self test stand for different files. -/
def testMachine : Os :=
  machine (testFiles ++ testFiles.map archive ++ testFiles.map restored)

/-- Only the first of the three files is there. -/
theorem self_test_sample :
    ∃ w', main testMachine zeros (world [[97, 97, 98]]) [] ["--test".toList] = some (0, w')
      ∧ w'.verdicts = [("sample.txt".toList, .passed),
        ("test_short.txt".toList, .compressionFailed),
        ("test_single.txt".toList, .compressionFailed)] := by
  have hplaces : ∀ t ∈ testFiles, testMachine.place (archive t) ≠ testMachine.place t
      ∧ testMachine.place (restored t) ≠ testMachine.place t
      ∧ testMachine.place (restored t) ≠ testMachine.place (archive t) := by
    decide +kernel
  have hapart : ∀ t ∈ testFiles, ∀ t' ∈ testFiles,
      testMachine.place t ≠ testMachine.place (archive t')
        ∧ testMachine.place t ≠ testMachine.place (restored t') := by
    decide +kernel
  have hlengths : ∀ t ∈ testFiles,
      ∀ text ∈ Files.read testMachine.toNames (world [[97, 97, 98]]).files t,
        text.val.length + 332 ≤ MAX_FILE := by
    decide +kernel
  obtain ⟨w', hrun, hverdicts, -⟩ := @self_test testMachine zeros (world [[97, 97, 98]]) []
    (fun t ht => ⟨fits_of_mem_testFiles ht, rfl, rfl, rfl, rfl, (hplaces t ht).1,
      (hplaces t ht).2.1, (hplaces t ht).2.2⟩)
    (fun t ht ⟨t', ht', hp⟩ => hp.elim (hapart t ht t' ht').1 (hapart t ht t' ht').2)
    (fun t ht text htext => hlengths t ht text htext)
  refine ⟨w', hrun, hverdicts.trans ?_⟩
  decide +kernel

/-- **One name.** A text that can be read is archived and restored beside it. When it can not be
read, an archive of before is restored all the same. -/
theorem quick_run {arg : List Char} (hclean : ∀ c ∈ arg, c ≠ NUL)
    (hlength : arg.length + 13 < MAX_PATH_LEN + 32)
    (harg : arg ∉ ["-c".toList, "-d".toList, "--test".toList])
    (hwritable : os.writable (os.place (archive arg)) = true)
    (hreadable : os.readable (os.place (archive arg)) = true)
    (hwritable' : os.writable (os.place (restored arg)) = true)
    (harchive : os.place (archive arg) ≠ os.place arg)
    (hrestored : os.place (restored arg) ≠ os.place (archive arg)) {text : File}
    (htext : read os.toNames w.files arg = some text ∧ text.val.length + 332 ≤ MAX_FILE
      ∨ read os.toNames w.files arg = none ∧ Archived os w (archive arg) text) :
    ∃ w', main os v w stdin [arg] = some (0, w')
      ∧ w'.files (os.place (restored arg)) = some text := by
  have hhuf : cstr (snprintf v.outHuf (arg ++ ".huf".toList)) = archive arg := by
    apply cstr_snprintf (archive_ne_nul hclean)
    rw [v.outHuf_size, length_archive]
    omega
  have htxt : cstr (snprintf v.outTxt (arg ++ "_restored.txt".toList)) = restored arg := by
    apply cstr_snprintf (restored_ne_nul hclean)
    rw [v.outTxt_size, length_restored]
    omega
  have harchived : ∃ code w₁, compressFile os w arg (archive arg) = some (code, w₁)
      ∧ Archived os w₁ (archive arg) text := by
    rcases htext with ⟨hread, hlen⟩ | ⟨hnone, hbefore⟩
    · exact ⟨0, compressFile_archives hread hlen harchive hwritable hreadable⟩
    · exact ⟨-1, w, by rw [compressFile, hnone], hbefore⟩
  obtain ⟨code, w₁, hcompress, h⟩ := harchived
  obtain ⟨w', hdecompress, hback⟩ := h.restored hrestored hwritable'
  refine ⟨w', ?_, hback⟩
  simp only [List.mem_cons, List.not_mem_nil, or_false, not_or] at harg
  rw [main, if_neg (fun h => harg.1 h.1), if_neg (fun h => harg.2.1 h.1), if_neg harg.2.2,
    if_pos List.length_nil]
  simp only [hhuf, htxt, hcompress, hdecompress, Option.bind_eq_bind, Option.bind_some]

theorem quick_run_sample :
    ∃ w', main (machine ["a".toList, archive "a".toList, restored "a".toList]) zeros
        (world [[97, 97, 98]]) [] ["a".toList] = some (0, w')
      ∧ w'.files 2 = some (written [97, 97, 98]) := by
  have hlen : (written [97, 97, 98]).val.length + 332 ≤ MAX_FILE := by
    rw [written_val (by decide)]
    decide
  exact @quick_run (machine ["a".toList, archive "a".toList, restored "a".toList]) zeros
    (world [[97, 97, 98]]) [] "a".toList (by simp [NUL]) (by decide) (by decide) rfl rfl rfl
    (by decide) (by decide) (written [97, 97, 98]) (Or.inl ⟨rfl, hlen⟩)

end Main

end CourseLabs.HuffmanSession
