/-
`CSMCS26A017_Lab2_2.c`, the bit-level input and output.

A file open for writing is the list of the bytes written, a file open for reading the
list of the bytes ahead. Between two calls `bitCount` is below `8` in a writer, and at
most `8` in a reader, so no shift is by a negative amount.

A writer has a meaning in bits, `Wrote bw base bits`: it has written the bits `bits` after
the bytes `base`, the last of them still in its buffer. A reader has the bits ahead of
it, `BitReader.bits`. Every lemma about the callers is in these terms.
-/
import CourseLabs.BitString

set_option autoImplicit false

namespace CourseLabs.Huffman

open CourseLabs.BitString

/-! ## The program -/

/-- The struct of the writer: what it has written, the byte under way, how many bits of it are
taken, and the count of written bytes. -/
structure BitWriter where
  fp : List UInt8
  buffer : UInt8
  bitCount : ℕ
  totalBytesWritten : ℕ

/-- The struct of the reader: what is left of the file, the byte it is in, and how many bits of
that are left. -/
structure BitReader where
  fp : List UInt8
  buffer : UInt8
  bitCount : ℕ

/-- `bitWriterInit`: the file as it is, and an empty byte to fill. -/
def bitWriterInit (fp : List UInt8) : BitWriter :=
  { fp, buffer := 0, bitCount := 0, totalBytesWritten := 0 }

/-- The buffer goes to the file and is cleared, and the count of written bytes goes up by one. -/
def putBuffer (bw : BitWriter) : BitWriter :=
  { fp := bw.fp ++ [bw.buffer]
    buffer := 0
    bitCount := 0
    totalBytesWritten := (bw.totalBytesWritten + 1) % 2 ^ 64 }

/-- `writeBit`: a bit that is not `0` is set at its place in the byte, counted from the left, and
with the eighth bit the byte is written. -/
def writeBit (bw : BitWriter) (bit : ℤ) : BitWriter :=
  let buffer := if bit ≠ 0 then bw.buffer ||| UInt8.ofNat (1 <<< (7 - bw.bitCount)) else bw.buffer
  let bw := { bw with buffer, bitCount := bw.bitCount + 1 }
  if bw.bitCount = 8 then putBuffer bw else bw

/-- `writeBits`; the last argument is `numBits`. The bits are written from the highest of them
down. -/
def writeBits (bw : BitWriter) (val : ℕ) : ℕ → BitWriter
  | 0 => bw
  | i + 1 => writeBits (writeBit bw ((val >>> i &&& 1 : ℕ) : ℤ)) val i

/-- `bitWriterFlush`: a byte under way is filled up with zeros and written out, and nothing is
written if there is none. -/
def bitWriterFlush (bw : BitWriter) : BitWriter :=
  if bw.bitCount > 0 then putBuffer bw else bw

/-- `bitReaderInit`: no bit is there yet, so the first one reads a byte. -/
def bitReaderInit (fp : List UInt8) : BitReader :=
  { fp, buffer := 0, bitCount := 0 }

/-- The next bit of a buffer that is not empty. -/
def nextBit (br : BitReader) : ℤ × BitReader :=
  ((br.buffer.toNat >>> (br.bitCount - 1) &&& 1 : ℕ), { br with bitCount := br.bitCount - 1 })

/-- `readBit`: a new byte when the last one is used up, then the next bit from the left. At the end
of the file it is `-1`. -/
def readBit (br : BitReader) : ℤ × BitReader :=
  if br.bitCount = 0 then
    match br.fp with
    | [] => (-1, br)
    | ch :: fp => nextBit { fp, buffer := ch, bitCount := 8 }
  else
    nextBit br

/-- `readBits`, with the bits still to read and the value so far: the value left in
`*val`, or the error it returns. -/
def readBits (br : BitReader) : ℕ → ℕ → Except ℤ ℕ × BitReader
  | 0, res => (.ok res, br)
  | n + 1, res =>
    let (b, br) := readBit br
    if b = -1 then
      (.error (-1), br)
    else
      readBits br n ((res <<< 1) % 2 ^ 32 ||| b.toNat)

/-! ## The writer -/

/-- The writer has put `bits` after the bytes `base`, and the free cells of its buffer
are clear. -/
structure Wrote (bw : BitWriter) (base : List UInt8) (bits : List Bool) : Prop where
  bitCount_lt : bw.bitCount < 8
  clear : ∀ i, i < 8 - bw.bitCount → bw.buffer.toNat.testBit i = false
  bytes : ∃ body, bw.fp = base ++ body ∧ bw.totalBytesWritten = body.length % 2 ^ 64
    ∧ body.flatMap byteBits ++ (byteBits bw.buffer).take bw.bitCount = bits

/-- A fresh writer has written nothing behind the file it began with. -/
theorem bitWriterInit_wrote (base : List UInt8) : Wrote (bitWriterInit base) base [] :=
  ⟨Nat.zero_lt_succ 7, fun i _ => by simp [bitWriterInit], [], by simp [bitWriterInit]⟩

section Writer

variable {bw : BitWriter} {base : List UInt8} {bits : List Bool}

/-- The buffer after one bit: the bit is at the next free place from the left, and the others are
as they were. -/
theorem testBit_buffer (h : ∀ i, i < 8 - bw.bitCount → bw.buffer.toNat.testBit i = false)
    (hk : bw.bitCount < 8) (bit : ℤ) {i : ℕ} (hi : i < 8) :
    (if bit ≠ 0 then bw.buffer ||| UInt8.ofNat (1 <<< (7 - bw.bitCount))
        else bw.buffer).toNat.testBit i
      = if i = 7 - bw.bitCount then decide (bit ≠ 0) else bw.buffer.toNat.testBit i := by
  have hbit : (1 <<< (7 - bw.bitCount)).testBit i = decide (7 - bw.bitCount = i) := by
    rw [Nat.one_shiftLeft, Nat.testBit_two_pow]
  by_cases hb : bit ≠ 0
  · rw [if_pos hb, UInt8.toNat_or, Nat.testBit_or, testBit_ofNat_byte hi, hbit]
    by_cases hik : i = 7 - bw.bitCount
    · simp [hik, hb]
    · simp [hik, Ne.symm hik]
  · rw [if_neg hb]
    by_cases hik : i = 7 - bw.bitCount
    · rw [if_pos hik, hik, h _ (by omega)]
      simp [hb]
    · rw [if_neg hik]

/-- A full or a flushed buffer is one more byte of the file. -/
theorem putBuffer_bytes {body : List UInt8} {buffer : UInt8} {k : ℕ}
    (hfp : bw.fp = base ++ body) (htotal : bw.totalBytesWritten = body.length % 2 ^ 64) :
    Wrote (putBuffer { bw with buffer, bitCount := k }) base
      (body.flatMap byteBits ++ byteBits buffer) := by
  refine ⟨Nat.zero_lt_succ 7, fun i _ => by simp [putBuffer], body ++ [buffer], ?_, ?_, ?_⟩
  · simp [putBuffer, hfp]
  · simp [putBuffer, htotal, Nat.add_mod]
  · simp [putBuffer]

/-- One bit more is written, whether the byte is full with it or not. -/
theorem writeBit_wrote (h : Wrote bw base bits) (bit : ℤ) :
    Wrote (writeBit bw bit) base (bits ++ [decide (bit ≠ 0)]) := by
  obtain ⟨hk, hclear, body, hfp, htotal, rfl⟩ := h
  have hbuf := fun i (hi : i < 8) => testBit_buffer hclear hk bit hi
  rw [writeBit]
  generalize (if bit ≠ 0 then bw.buffer ||| UInt8.ofNat (1 <<< (7 - bw.bitCount))
    else bw.buffer) = buffer at *
  simp only
  -- the bits before the new one are as they were
  have hold : (byteBits buffer).take bw.bitCount = (byteBits bw.buffer).take bw.bitCount := by
    rw [take_byteBits buffer hk.le, take_byteBits bw.buffer hk.le]
    apply lowBits_congr
    intro i hi
    rw [Nat.testBit_shiftRight, Nat.testBit_shiftRight, hbuf _ (by omega), if_neg (by omega)]
  have hnew : (byteBits buffer).take (bw.bitCount + 1)
      = (byteBits bw.buffer).take bw.bitCount ++ [decide (bit ≠ 0)] := by
    rw [take_byteBits_succ buffer hk, hold, hbuf _ (by omega), if_pos rfl]
  -- a full buffer is written out and cleared
  by_cases hfull : bw.bitCount + 1 = 8
  · rw [if_pos hfull]
    rw [hfull, List.take_of_length_le (length_byteBits buffer).le] at hnew
    rw [List.append_assoc, ← hnew]
    exact putBuffer_bytes hfp htotal
  · rw [if_neg hfull]
    refine ⟨by simp only; omega, ?_, body, hfp, htotal, by rw [hnew, List.append_assoc]⟩
    intro i hi
    simp only at hi
    rw [hbuf i (by omega), if_neg (by omega)]
    exact hclear i (by omega)

/-- `writeBits` writes the lowest `n` bits of a value, the highest of them first. -/
theorem writeBits_wrote (h : Wrote bw base bits) (val n : ℕ) :
    Wrote (writeBits bw val n) base (bits ++ lowBits val n) := by
  induction n generalizing bw bits with
  | zero => rwa [writeBits, lowBits, List.append_nil]
  | succ n ih =>
      have hbit : decide (((val >>> n &&& 1 : ℕ) : ℤ) ≠ 0) = val.testBit n := by
        rw [Nat.and_one_is_mod, Nat.testBit_eq_decide_div_mod_eq, Nat.shiftRight_eq_div_pow]
        rcases Nat.mod_two_eq_zero_or_one (val / 2 ^ n) with h0 | h1
        · simp [h0]
        · simp [h1]
      have := ih (writeBit_wrote h ((val >>> n &&& 1 : ℕ) : ℤ))
      rwa [hbit, List.append_assoc, List.singleton_append] at this

/-- The flush fills the last byte up with zeros, fewer than eight of them; so the bytes are the
bits, and the padding. -/
theorem bitWriterFlush_bytes (h : Wrote bw base bits) :
    ∃ body pad, (bitWriterFlush bw).fp = base ++ body ∧ pad < 8
      ∧ body.flatMap byteBits = bits ++ List.replicate pad false
      ∧ (bitWriterFlush bw).totalBytesWritten = body.length % 2 ^ 64 := by
  obtain ⟨hk, hclear, body, hfp, htotal, rfl⟩ := h
  rw [bitWriterFlush]
  by_cases hpos : bw.bitCount > 0
  · rw [if_pos hpos]
    refine ⟨body ++ [bw.buffer], 8 - bw.bitCount, by rw [putBuffer, hfp, List.append_assoc],
      by omega, ?_, by simp [putBuffer, htotal, Nat.add_mod]⟩
    rw [List.flatMap_append, List.append_assoc, ← byteBits_eq_take hk.le hclear]
    simp
  · rw [if_neg hpos]
    exact ⟨body, 0, hfp, by omega, by simp [show bw.bitCount = 0 by omega], htotal⟩

end Writer

/-! ## The reader -/

/-- The bits ahead of a reader. -/
def BitReader.bits (br : BitReader) : List Bool :=
  lowBits br.buffer.toNat br.bitCount ++ br.fp.flatMap byteBits

section Reader

variable {br : BitReader}

/-- A fresh reader has the bits of the whole file before it. -/
@[simp] theorem bits_bitReaderInit (fp : List UInt8) :
    (bitReaderInit fp).bits = fp.flatMap byteBits := by
  rw [BitReader.bits, bitReaderInit, lowBits, List.nil_append]

/-- The next bit of the byte under way, and it is the first of the bits that are left. -/
theorem nextBit_spec {b : Bool} {bs : List Bool} (hk : 0 < br.bitCount) (h : br.bits = b :: bs) :
    ∃ br', nextBit br = ((b.toNat : ℤ), br') ∧ br'.bits = bs := by
  obtain ⟨k, hk'⟩ : ∃ k, br.bitCount = k + 1 := ⟨br.bitCount - 1, by omega⟩
  rw [BitReader.bits, hk', lowBits, List.cons_append] at h
  obtain ⟨hb, hbs⟩ := List.cons.inj h
  refine ⟨{ br with bitCount := k }, ?_, hbs⟩
  rw [nextBit, hk', Nat.add_sub_cancel, Nat.and_one_is_mod, Nat.shiftRight_eq_div_pow,
    ← Nat.toNat_testBit, hb]

/-- `readBit` gives the bits in their order, over the ends of the bytes. -/
theorem readBit_cons {b : Bool} {bs : List Bool} (h : br.bits = b :: bs) :
    ∃ br', readBit br = ((b.toNat : ℤ), br') ∧ br'.bits = bs := by
  rw [readBit]
  by_cases h0 : br.bitCount = 0
  · rw [if_pos h0]
    rw [BitReader.bits, h0, lowBits, List.nil_append] at h
    cases hfp : br.fp with
    | nil => simp [hfp] at h
    | cons ch fp =>
        rw [hfp, List.flatMap_cons] at h
        exact nextBit_spec (by simp) h
  · rw [if_neg h0]
    exact nextBit_spec (by omega) h

/-- Where no bit is left it returns `-1` and stays where it is. -/
theorem readBit_nil (h : br.bits = []) : readBit br = (-1, br) := by
  rw [BitReader.bits, List.append_eq_nil_iff] at h
  have h0 : br.bitCount = 0 := by
    rw [← length_lowBits br.buffer.toNat br.bitCount, h.1, List.length_nil]
  have hfp : br.fp = [] := by
    cases hfp : br.fp with
    | nil => rfl
    | cons ch fp =>
        have := congrArg List.length h.2
        rw [hfp, List.flatMap_cons, List.length_append, length_byteBits, List.length_nil] at this
        omega
  rw [readBit, if_pos h0, hfp]

/-- A bit is not the value for the end of the file. -/
theorem toNat_ne_neg_one (b : Bool) : ((b.toNat : ℕ) : ℤ) ≠ -1 := by
  omega

/-- Enough bits: `readBits` accumulates them, the first one as the highest, and leaves the rest. -/
theorem readBits_append {l rest : List Bool} {res j : ℕ} (h : br.bits = l ++ rest)
    (hres : res < 2 ^ j) (hj : j + l.length ≤ 32) :
    ∃ br', readBits br l.length res = (.ok (pushBits res l), br') ∧ br'.bits = rest := by
  induction l generalizing br res j with
  | nil => exact ⟨br, rfl, h⟩
  | cons b l ih =>
      obtain ⟨br1, hread, hbits⟩ := readBit_cons h
      rw [List.length_cons] at hj
      have hb := Bool.toNat_le b
      have hsucc : 2 * res + b.toNat < 2 ^ (j + 1) := by
        rw [pow_succ]
        omega
      have hpow : 2 ^ (j + 1) ≤ 2 ^ 32 := Nat.pow_le_pow_right (by omega) (by omega)
      -- the value so far is small enough for the shift
      have hshift : (res <<< 1) % 2 ^ 32 ||| b.toNat = 2 * res + b.toNat := by
        rw [Nat.shiftLeft_eq, pow_one, Nat.mul_comm, Nat.mod_eq_of_lt (by omega), two_mul_or_toNat]
      obtain ⟨br2, hrest, hbits2⟩ := ih hbits hsucc (by omega)
      refine ⟨br2, ?_, hbits2⟩
      rw [List.length_cons, readBits, hread]
      simp only [toNat_ne_neg_one, if_false, Int.toNat_natCast, hshift]
      exact hrest

/-- Too few bits: `readBits` fails, with nothing left to read. -/
theorem readBits_short {n : ℕ} (res : ℕ) (h : br.bits.length < n) :
    ∃ br', readBits br n res = (.error (-1), br') ∧ br'.bits = [] := by
  induction n generalizing br res with
  | zero => omega
  | succ n ih =>
      rw [readBits]
      cases hbits : br.bits with
      | nil =>
          rw [readBit_nil hbits]
          exact ⟨br, rfl, hbits⟩
      | cons b bs =>
          obtain ⟨br1, hread, hbits1⟩ := readBit_cons hbits
          rw [hbits, List.length_cons] at h
          rw [hread]
          simp only [toNat_ne_neg_one, if_false]
          exact ih _ (by rw [hbits1]; omega)

end Reader

end CourseLabs.Huffman
