import Mathlib.Data.BitVec
import Mathlib.Data.List.GetD
import Mathlib.Data.List.TakeWhile
import Mathlib.Tactic.Common

/-!
# C integers, bit masks and strings in memory

Memory is a sequence of bytes.  An `int` is four of them, little-endian; a string is a run of
nonzero bytes with a zero behind it.
-/

namespace KwHomework

/-- A C `int`. -/
abbrev CInt := BitVec 32

/-- A C `char`, as the eight bits it is stored in. -/
abbrev Byte := BitVec 8

/-! ## Integers -/

/-- Byte `r` of an `int` in memory. -/
def intByte (value : CInt) (r : Nat) : Byte := value.extractLsb' (8 * r) 8

/-- The `int` that four bytes spell. -/
def intOfBytes (byte0 byte1 byte2 byte3 : Byte) : CInt :=
  (byte3 ++ byte2 ++ byte1 ++ byte0 : BitVec (8 + 8 + 8 + 8))

theorem intOfBytes_intByte (value : CInt) :
    intOfBytes (intByte value 0) (intByte value 1) (intByte value 2) (intByte value 3) = value := by
  simp only [intOfBytes, intByte]
  ext i bound
  simp only [BitVec.getElem_append, BitVec.getElem_extractLsb']
  split_ifs <;> rw [← BitVec.getLsbD_eq_getElem bound] <;> congr 1 <;> omega

/-- An `int` that is not negative is the number that its bits spell. -/
theorem toInt_eq_toNat {n : CInt} (nonneg : 0 ≤ n.toInt) : n.toInt = n.toNat :=
  BitVec.toInt_eq_toNat_of_lt (by
    rw [BitVec.toInt_eq_toNat_cond] at nonneg
    split at nonneg <;> omega)

theorem tmod_eq_mod {n : CInt} (nonneg : 0 ≤ n.toInt) (m : Nat) :
    n.toInt.tmod m = (n.toNat % m : Nat) := by
  rw [toInt_eq_toNat nonneg]
  exact Int.tmod_eq_emod_of_nonneg (Int.natCast_nonneg _)

/-! ## Bit masks

A `char` is sign-extended to an `int` before a mask is applied to it. -/

/-- `byte |= 1 << bit`. -/
def setMask (byte : Byte) (bit : Nat) : Byte :=
  (byte.signExtend 32 ||| (1 : CInt) <<< bit).setWidth 8

/-- `byte &= ~(1 << bit)`. -/
def resetMask (byte : Byte) (bit : Nat) : Byte :=
  (byte.signExtend 32 &&& ~~~((1 : CInt) <<< bit)).setWidth 8

/-- `(byte & (1 << bit)) == 0`. -/
def maskClear (byte : Byte) (bit : Nat) : Bool := byte.signExtend 32 &&& (1 : CInt) <<< bit = 0

private theorem getLsbD_one_shiftLeft (k i : Nat) (small : i < 32) :
    ((1 : CInt) <<< k).getLsbD i = decide (i = k) := by
  rw [BitVec.getLsbD_shiftLeft, show (1 : CInt) = 1#32 from rfl, BitVec.getLsbD_one]
  by_cases same : i = k
  · simp [same]
    omega
  · simp [same, small]
    omega

private theorem getLsbD_signExtend_byte (byte : Byte) {i : Nat} (small : i < 8) :
    (byte.signExtend 32).getLsbD i = byte.getLsbD i := by
  have wide : i < 32 := by omega
  rw [BitVec.getLsbD_signExtend, if_pos small, decide_eq_true wide, Bool.true_and]

theorem getLsbD_setMask (byte : Byte) (bit : Nat) {i : Nat} (small : i < 8) :
    (setMask byte bit).getLsbD i = (byte.getLsbD i || decide (i = bit)) := by
  rw [setMask, BitVec.getLsbD_setWidth, BitVec.getLsbD_or, getLsbD_signExtend_byte byte small,
    getLsbD_one_shiftLeft bit i (by omega), decide_eq_true small, Bool.true_and]

theorem getLsbD_resetMask (byte : Byte) (bit : Nat) {i : Nat} (small : i < 8) :
    (resetMask byte bit).getLsbD i = (byte.getLsbD i && !decide (i = bit)) := by
  have wide : i < 32 := by omega
  rw [resetMask, BitVec.getLsbD_setWidth, BitVec.getLsbD_and, getLsbD_signExtend_byte byte small,
    BitVec.getLsbD_not, getLsbD_one_shiftLeft bit i wide, decide_eq_true small, Bool.true_and,
    decide_eq_true wide, Bool.true_and]

theorem maskClear_eq (byte : Byte) {bit : Nat} (small : bit < 8) :
    maskClear byte bit = !byte.getLsbD bit := by
  have wide : bit < 32 := by omega
  rw [maskClear, Bool.eq_iff_iff, decide_eq_true_eq, Bool.not_eq_true']
  constructor
  · intro clear
    have read := congrArg (fun value : CInt => value.getLsbD bit) clear
    simp only [BitVec.getLsbD_and, getLsbD_signExtend_byte byte small,
      getLsbD_one_shiftLeft bit bit wide] at read
    simpa using read
  · intro clear
    refine BitVec.eq_of_getLsbD_eq fun i inside => ?_
    rw [BitVec.getLsbD_and, getLsbD_one_shiftLeft bit i inside]
    by_cases same : i = bit
    · rw [same, getLsbD_signExtend_byte byte small, clear]
      simp
    · simp [same]

/-! ## Strings

A C string is a list of nonzero bytes; in memory it is followed by a zero. -/

/-- The memory at a string. -/
def cString (text : List Byte) (i : Nat) : Byte := text.getD i 0#8

/-- Memory that starts with the string `text`. -/
def Spells (memory : Nat → Byte) (text : List Byte) : Prop :=
  0#8 ∉ text ∧ ∀ i ≤ text.length, memory i = text.getD i 0#8

/-- What `sprintf(dst, "%s", text)` makes of the memory at `dst`. -/
def sprintf (dst : Nat → Byte) (text : List Byte) (i : Nat) : Byte :=
  if i ≤ text.length then cString text i else dst i

/-- What `strcpy(dst, text)` makes of an array; a string that does not fit is written behind its
end. -/
def strcpy {n : Nat} (dst : Fin n → Byte) (text : List Byte) : Option (Fin n → Byte) :=
  if text.length < n then some fun i => sprintf (fun _ => dst i) text i else none

/-- What `strncpy(dst, src, n)` writes: the string at `src`, padded with zeros. -/
def strncpy (src : Nat → Byte) (k : Nat) : Byte :=
  if ∀ i ≤ k, src i ≠ 0#8 then src k else 0#8

/-- `strcmp(memory, str) == 0`; a comparison that runs off the end of `memory` has no answer. -/
def strcmpEq : List Byte → (Nat → Byte) → Option Bool
  | [], _ => none
  | byte :: memory, str =>
      if byte ≠ str 0 then some false
      else if byte = 0#8 then some true
      else strcmpEq memory fun i => str (i + 1)

theorem spells_cString {text : List Byte} (nonzero : 0#8 ∉ text) : Spells (cString text) text :=
  ⟨nonzero, fun _ _ => rfl⟩

theorem spells_sprintf (dst : Nat → Byte) {text : List Byte} (nonzero : 0#8 ∉ text) :
    Spells (sprintf dst text) text :=
  ⟨nonzero, fun i inside => by rw [sprintf, if_pos inside, cString]⟩

theorem Spells.zero_of_nil {memory : Nat → Byte} (spells : Spells memory []) : memory 0 = 0#8 := by
  simpa using spells.2 0

theorem Spells.tail {memory : Nat → Byte} {byte : Byte} {text : List Byte}
    (spells : Spells memory (byte :: text)) :
    memory 0 = byte ∧ byte ≠ 0#8 ∧ Spells (fun i => memory (i + 1)) text := by
  obtain ⟨nonzero, bytes⟩ := spells
  refine ⟨by simpa using bytes 0, ?_, fun member => nonzero (by simp [member]), fun i inside => ?_⟩
  · rintro rfl
    exact nonzero (by simp)
  · simpa using bytes (i + 1) (by simpa using inside)

/-- `strcmp` of a terminated string against another one. -/
theorem strcmpEq_eq : ∀ {memory : List Byte} {str : Nat → Byte} {text : List Byte},
    0#8 ∈ memory → Spells str text →
    strcmpEq memory str = some (decide (memory.takeWhile (· ≠ 0#8) = text))
  | [], _, _, terminated, _ => by simp at terminated
  | byte :: memory, str, text, terminated, spells => by
      cases text with
      | nil =>
          rw [strcmpEq, spells.zero_of_nil]
          by_cases zero : byte = 0#8 <;> simp [zero]
      | cons first text =>
          obtain ⟨head, nonzero, rest⟩ := spells.tail
          rw [strcmpEq, head]
          by_cases same : byte = first
          · subst same
            have terminated' : 0#8 ∈ memory := by simpa [Ne.symm nonzero] using terminated
            simp [nonzero, strcmpEq_eq terminated' rest]
          · by_cases zero : byte = 0#8 <;> simp [same, zero, Ne.symm nonzero]

theorem spells_strncpy {src : Nat → Byte} {text : List Byte} (spells : Spells src text) :
    Spells (strncpy src) text := by
  refine ⟨spells.1, fun i inside => ?_⟩
  rw [strncpy]
  split_ifs with nonzero
  · exact spells.2 i inside
  · push Not at nonzero
    obtain ⟨k, le, zero⟩ := nonzero
    have at_end : text.getD k 0#8 = 0#8 := by rw [← spells.2 k (by omega), zero]
    have last : text.length ≤ k := by
      by_contra inner
      rw [List.getD_eq_getElem _ _ (by omega)] at at_end
      exact spells.1 (at_end ▸ List.getElem_mem _)
    rw [List.getD_eq_default _ _ (by omega)]

/-- Copying a printed string does not show what was in the memory before. -/
theorem strncpy_sprintf (dst : Nat → Byte) (text : List Byte) :
    strncpy (sprintf dst text) = strncpy (cString text) := by
  funext k
  by_cases inside : k ≤ text.length
  · have same : ∀ i ≤ k, sprintf dst text i = cString text i := fun i le =>
      if_pos (le.trans inside)
    rw [strncpy, strncpy, same k le_rfl]
    exact if_congr (forall₂_congr fun i le => by rw [same i le]) rfl rfl
  · have at_end : cString text text.length = 0#8 := List.getD_eq_default _ _ le_rfl
    have at_end' : sprintf dst text text.length = 0#8 := (if_pos le_rfl).trans at_end
    rw [strncpy, if_neg fun all => all text.length (by omega) at_end', strncpy,
      if_neg fun all => all text.length (by omega) at_end]

/-- The string read back from memory that spells it. -/
theorem takeWhile_of_spells : ∀ {memory : Nat → Byte} {text : List Byte} {n : Nat},
    Spells memory text → text.length < n →
    ((List.range n).map memory).takeWhile (· ≠ 0#8) = text
  | memory, text, 0, _, short => by simp at short
  | memory, [], n + 1, spells, _ => by
      simp [List.range_succ_eq_map, spells.zero_of_nil]
  | memory, byte :: text, n + 1, spells, short => by
      obtain ⟨head, nonzero, rest⟩ := spells.tail
      have induction := takeWhile_of_spells rest (Nat.lt_of_succ_lt_succ short)
      rw [List.range_succ_eq_map, List.map_cons, List.map_map, head,
        List.takeWhile_cons_of_pos (by simpa using nonzero)]
      exact congrArg (byte :: ·) induction

end KwHomework
