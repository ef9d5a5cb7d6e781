import Mathlib.Data.Int.Bitwise
import Mathlib.Data.Int.ModEq
import TypeFlow.Proofs.OperatorCoverage

/-!
# Integers fold exactly

Operators on known integers are compared with the same operators on all of `Int`. Both widths are
words: a word is congruent to its integer modulo a power of two, and each operator on words to the
operator on integers. So a result is the known integer of its width that is congruent to the exact
one, also where operands of different widths meet.
-/

namespace TypeFlow

/-! ### Words -/

namespace Word

variable {w : Nat}

theorem bmod_modEq (n : Int) : n.bmod (2 ^ w) ≡ n [ZMOD 2 ^ w] := by exact_mod_cast Int.bmod_emod

/-- The word of an integer has the low bits of the integer. -/
theorem getLsbD_ofInt (n : Int) {k : Nat} (hk : k < w) :
    (BitVec.ofInt w n).getLsbD k = n.testBit k := by
  have hnat (m : Nat) : (BitVec.ofNat w m)[k] = m.testBit k := by
    simp [← BitVec.getLsbD_eq_getElem, BitVec.getLsbD_ofNat, hk]
  cases n with
  | ofNat m | negSucc m => simp [hnat, Int.testBit, hk]

variable (x : BitVec w)

theorem getLsbD_eq {k : Nat} (hk : k < w) : x.getLsbD k = x.toInt.testBit k := by
  rw [← getLsbD_ofInt _ hk, BitVec.ofInt_toInt]

/-- A word is congruent to the integers that have its bits. -/
theorem modEq_of_bits {x : BitVec w} {n : Int} (h : ∀ k < w, x.getLsbD k = n.testBit k) :
    x.toInt ≡ n [ZMOD 2 ^ w] := by
  have heq := BitVec.eq_of_getLsbD_eq fun k hk => (h k hk).trans (getLsbD_ofInt n hk).symm
  rw [heq, BitVec.toInt_ofInt]
  exact bmod_modEq n

theorem toNat_modEq : (x.toNat : Int) ≡ x.toInt [ZMOD 2 ^ w] := by
  rw [BitVec.toInt_eq_toNat_bmod]
  exact (bmod_modEq _).symm

theorem neg_modEq : (-x).toInt ≡ -x.toInt [ZMOD 2 ^ w] := by
  rw [BitVec.toInt_neg]
  exact bmod_modEq _

theorem not_modEq : (~~~x).toInt ≡ x.toInt.lnot [ZMOD 2 ^ w] :=
  modEq_of_bits fun k hk => by simp [← getLsbD_eq x hk, hk]

theorem shiftLeft_modEq (n : Nat) : (x <<< n).toInt ≡ x.toInt * 2 ^ n [ZMOD 2 ^ w] := by
  rw [BitVec.toInt_shiftLeft, Nat.shiftLeft_eq, Nat.cast_mul]
  exact (bmod_modEq _).trans ((toNat_modEq x).mul_right _)

/-- By how much a word is shifted: the low bits of the second operand. -/
def amount (y : BitVec w) : BitVec w := (y &&& BitVec.ofNat w (w - 1)).smod (BitVec.ofNat w w)

/-- The low bits of a word are its remainder modulo the width, if this is a power of two. -/
theorem toNat_amount {j : Nat} (hw : w = 2 ^ j) (hlt : 2 * w < 2 ^ w) (y : BitVec w) :
    (amount y).toNat = (y.toInt % w).toNat := by
  have hpos := hw ▸ Nat.two_pow_pos j
  have hmask : (y &&& BitVec.ofNat w (w - 1)).toNat = y.toNat % w := by
    rw [BitVec.toNat_and, BitVec.toNat_ofNat, Nat.mod_eq_of_lt (by omega)]
    nth_rewrite 2 [hw]
    rw [Nat.and_two_pow_sub_one_eq_mod, ← hw]
  have hwidth : (BitVec.ofNat w w).toNat = w := by
    rw [BitVec.toNat_ofNat, Nat.mod_eq_of_lt (by omega)]
  have hsmall : y.toNat % w < w := Nat.mod_lt _ hpos
  have hmsb {x : BitVec w} (hx : x.toNat ≤ w) : x.msb = false :=
    BitVec.msb_eq_false_iff_two_mul_lt.mpr (by omega)
  have hmod : (y.toNat : Int) % w = y.toInt % w := by
    refine (toNat_modEq y).of_dvd ?_
    have hdvd : 2 ^ j ∣ 2 ^ w := Nat.pow_dvd_pow 2 (hw ▸ Nat.lt_two_pow_self.le)
    rw [← hw] at hdvd
    exact_mod_cast hdvd
  rw [amount, BitVec.toNat_smod, hmsb (hmask.trans_le hsmall.le), hmsb hwidth.le]
  simp only [BitVec.umod_eq, BitVec.toNat_umod, hmask, hwidth, Nat.mod_mod]
  omega

end Word

/-! ### Operators on integers -/

/-- What an operator gives for two integers, if it is no comparison and does not divide by zero. A
shift goes by its second operand modulo `bits`. -/
def BinaryOp.onInt? (op : BinaryOp) (bits : Nat) (a b : Int) : Option Int :=
  match op with
  | .add => some (a + b)
  | .sub => some (a - b)
  | .mul => some (a * b)
  | .div => if b = 0 then none else some (a.tdiv b)
  | .mod => if b = 0 then none else some (a.tmod b)
  | .shl => some (a * 2 ^ (b % bits).toNat)
  | .shr => some (a / 2 ^ (b % bits).toNat)
  | .bitAnd => some (a.land b)
  | .bitOr => some (a.lor b)
  | .bitXor => some (a.xor b)
  | _ => none

/-- What an operator gives for two words. -/
def BinaryOp.onWord? {w : Nat} (op : BinaryOp) (x y : BitVec w) : Option (BitVec w) :=
  match op with
  | .add => some (x + y)
  | .sub => some (x - y)
  | .mul => some (x * y)
  | .div => if y = 0 then none else some (x.sdiv y)
  | .mod => if y = 0 then none else some (x.srem y)
  | .shl => some (x <<< Word.amount y)
  | .shr => some (x.sshiftRight' (Word.amount y))
  | .bitAnd => some (x &&& y)
  | .bitOr => some (x ||| y)
  | .bitXor => some (x ^^^ y)
  | _ => none

variable (op : BinaryOp)

theorem numberArithmetic_eq (x y : Int32) :
    numberArithmetic op x y = (op.onWord? x.toBitVec y.toBitVec).map Int32.ofBitVec := by
  have hzero : y = 0 ↔ y.toBitVec = 0 := Int32.toBitVec_inj.symm
  cases op with
  | div | mod =>
    simp only [numberArithmetic, BinaryOp.onWord?, hzero]
    split <;> rfl
  | _ => rfl

theorem longArithmetic_eq (x y : Int64) :
    longArithmetic op x y = (op.onWord? x.toBitVec y.toBitVec).map Int64.ofBitVec := by
  have hzero : y = 0 ↔ y.toBitVec = 0 := Int64.toBitVec_inj.symm
  cases op with
  | div | mod =>
    simp only [longArithmetic, BinaryOp.onWord?, hzero]
    split <;> rfl
  | _ => rfl

open Word in
/-- Operators on words are congruent to those on integers. -/
theorem BinaryOp.onWord?_exact {w j : Nat} (hw : w = 2 ^ j) (hlt : 2 * w < 2 ^ w) (op : BinaryOp)
    (x y : BitVec w) :
    Option.Rel (fun z n => z.toInt ≡ n [ZMOD 2 ^ w]) (op.onWord? x y)
      (op.onInt? w x.toInt y.toInt) := by
  have hzero : y.toInt = 0 ↔ y = 0 := by
    have h : (0 : BitVec w).toInt = 0 := BitVec.toInt_zero
    rw [← BitVec.toInt_inj, h]
  cases op with
  | add => exact .some (BitVec.toInt_add x y ▸ bmod_modEq _)
  | sub => exact .some (BitVec.toInt_sub (x := x) (y := y) ▸ bmod_modEq _)
  | mul => exact .some (BitVec.toInt_mul x y ▸ bmod_modEq _)
  | div =>
    simp only [onWord?, onInt?, hzero]
    split
    · exact .none
    · exact .some (BitVec.toInt_sdiv x y ▸ bmod_modEq _)
  | mod =>
    simp only [onWord?, onInt?, hzero]
    split
    · exact .none
    · exact .some (BitVec.toInt_srem x y ▸ .rfl)
  | shl =>
    simp only [onWord?, onInt?, BitVec.shiftLeft_eq', toNat_amount hw hlt]
    exact .some (shiftLeft_modEq x _)
  | shr =>
    simp only [onWord?, onInt?, BitVec.sshiftRight_eq', toNat_amount hw hlt]
    refine .some ?_
    rw [BitVec.toInt_sshiftRight, Int.shiftRight_eq_div_pow, Nat.cast_pow, Nat.cast_ofNat]
  | bitAnd =>
    refine .some (modEq_of_bits fun k hk => ?_)
    rw [BitVec.getLsbD_and, getLsbD_eq x hk, getLsbD_eq y hk, Int.testBit_land]
  | bitOr =>
    refine .some (modEq_of_bits fun k hk => ?_)
    rw [BitVec.getLsbD_or, getLsbD_eq x hk, getLsbD_eq y hk, Int.testBit_lor]
  | bitXor =>
    refine .some (modEq_of_bits fun k hk => ?_)
    rw [BitVec.getLsbD_xor, getLsbD_eq x hk, getLsbD_eq y hk, Int.testBit_lxor]
  | _ => exact .none

/-! ### Known integers -/

/-- A known integer, of 32 or of 64 bits. -/
inductive Integer where
  | number (n : Int32)
  | long (n : Int64)

namespace Integer

/-- The width. -/
def bits : Integer → Nat
  | number _ => 32
  | long _ => 64

def toInt : Integer → Int
  | number n | long n => n.toInt

def toNum : Integer → Num
  | number n => .number n
  | long n => .long n

/-- The type that has only this integer. -/
def toTy (x : Integer) : Ty := x.toNum.toTy

/-- The kind of the integers of a width. -/
def tagOf (bits : Nat) : Tag := if bits = 32 then .number else .long

/-- A type is the integer of the given width that is congruent to `n`, or, without `n`, all integers
of this width. -/
def IsResult (bits : Nat) (t : Ty) : Option Int → Prop
  | some n => ∃ z : Integer, t = z.toTy ∧ z.bits = bits ∧ z.toInt ≡ n [ZMOD 2 ^ bits]
  | none => t = .ofTags (.single (tagOf bits))

theorem IsResult.isNever {bits : Nat} {t : Ty} {n? : Option Int} (h : IsResult bits t n?) :
    t.isNever = false := by
  cases n? with
  | some n =>
    obtain ⟨z, rfl, -, -⟩ := h
    cases z <;> rfl
  | none =>
    obtain rfl := h
    unfold tagOf
    split <;> rfl

/-- The value that an integer is. -/
def value : Integer → Value
  | number n => .scalar (.number n)
  | long n => .scalar (.long n)

variable (x : Integer)

theorem known? : x.value.known? = some x.toTy := by cases x <;> rfl

theorem kinds : Tags.integer.contains x.value.tag ∧
    Tags.numeric.contains x.value.tag ∧ Tags.boolean.contains x.value.tag = false ∧
    x.value.tag ≠ .object ∧ x.value.tag ≠ .string := by
  have htag : x.value.tag = .number ∨ x.value.tag = .long := by
    cases x <;> simp [value, Value.tag, Scalar.tag]
  rcases htag with htag | htag <;> rw [htag] <;> decide

theorem firstNum? : x.toTy.firstNum? = some x.toNum := by cases x <;> rfl

theorem toInt_ofInt (n : Int32) : (Int64.ofInt n.toInt).toInt = n.toInt :=
  Int64.toInt_ofInt_of_le (by have := n.le_toInt; omega) (by have := n.toInt_lt; omega)

theorem promote_number (n : Int32) : (Num.number n).promote .number = .number n := by
  rw [Num.promote, Num.toLong, toInt_ofInt, Int32.ofInt_toInt]

/-- An integer as a 64-bit integer. -/
def toLong (x : Integer) : Int64 := x.toNum.toLong

theorem toInt_toLong : x.toLong.toInt = x.toInt := by
  cases x with
  | number n => exact toInt_ofInt n
  | long n => rfl

/-- A result on words is the known integer of the width that is congruent to the exact result. -/
theorem isResult_of_onWord? {w j : Nat} (hw : w = 2 ^ j) (hlt : 2 * w < 2 ^ w)
    {f : BitVec w → Integer} (hf : ∀ z, (f z).bits = w ∧ (f z).toInt = z.toInt)
    {op : BinaryOp} {x y : BitVec w} {num? : Option Num}
    (h : num? = (op.onWord? x y).map fun z => (f z).toNum) :
    IsResult w (num?.elim (.ofTags (.single (tagOf w))) Num.toTy)
      (op.onInt? w x.toInt y.toInt) := by
  have hexact := BinaryOp.onWord?_exact hw hlt op x y
  subst h
  generalize op.onWord? x y = z? at hexact ⊢
  generalize op.onInt? w x.toInt y.toInt = n? at hexact ⊢
  cases hexact with
  | none => exact rfl
  | @some z n hz => exact ⟨f z, rfl, (hf z).1, (hf z).2 ▸ hz⟩

theorem numericPair_eq (x y : Integer) {tag : Tag} (htag : promoted x.value.tag y.value.tag = tag)
    (hinteger : tag = .number ∨ tag = .long) :
    Ty.numericPair op x.value.tag x.toTy y.value.tag y.toTy =
      some ((Num.arithmetic op (x.toNum.promote tag) (y.toNum.promote tag)).elim
        (.ofTags (.single tag)) Num.toTy) := by
  have hkinds : Tags.integer.contains tag ∧ Tags.decimal.contains tag = false := by
    rcases hinteger with rfl | rfl <;> decide
  simp only [Ty.numericPair, htag, firstNum?, hkinds, Bool.not_true, Bool.and_false]
  cases Num.arithmetic op (x.toNum.promote tag) (y.toNum.promote tag) <;> rfl

/-- An operator on two parts that are known integers gives the exact result in the wider format. -/
theorem numericPair_isResult (x y : Integer) :
    ∃ t, Ty.numericPair op x.value.tag x.toTy y.value.tag y.toTy = some t ∧
      IsResult (max x.bits y.bits) t (op.onInt? (max x.bits y.bits) x.toInt y.toInt) := by
  have hlong (htag : promoted x.value.tag y.value.tag = .long) (hbits : max x.bits y.bits = 64) :
      ∃ t, Ty.numericPair op x.value.tag x.toTy y.value.tag y.toTy = some t ∧
        IsResult (max x.bits y.bits) t (op.onInt? (max x.bits y.bits) x.toInt y.toInt) := by
    refine ⟨_, numericPair_eq op x y htag (.inr rfl), ?_⟩
    rw [hbits, ← toInt_toLong x, ← toInt_toLong y]
    refine isResult_of_onWord? (j := 6) rfl (by decide) (f := fun z => long (.ofBitVec z))
      (fun _ => ⟨rfl, rfl⟩) ?_
    change (longArithmetic op x.toLong y.toLong).map Num.long = _
    rw [longArithmetic_eq, Option.map_map]
    rfl
  cases x with
  | number n =>
    cases y with
    | number m =>
      refine ⟨_, numericPair_eq op (number n) (number m) rfl (.inl rfl), ?_⟩
      refine isResult_of_onWord? (j := 5) rfl (by decide) (f := fun z => number (.ofBitVec z))
        (fun _ => ⟨rfl, rfl⟩) ?_
      change Num.arithmetic op (.promote (.number n) .number) (.promote (.number m) .number) = _
      rw [promote_number, promote_number, Num.arithmetic, numberArithmetic_eq, Option.map_map]
      rfl
    | long m => exact hlong rfl rfl
  | long n => cases y <;> exact hlong rfl rfl

variable (table : DeclTable)

theorem binary_isResult {op : BinaryOp} (hop : op.isComparison = false) (x y : Integer) :
    IsResult (max x.bits y.bits) (.binary table op x.toTy y.toTy)
      (op.onInt? (max x.bits y.bits) x.toInt y.toInt) := by
  obtain ⟨t, ht, hresult⟩ := numericPair_isResult op x y
  have hpair : Ty.binaryPair op x.value.tag x.toTy y.value.tag y.toTy = some t := by
    simp [Ty.binaryPair, kinds, ht]
  rw [Value.binary_known hop x.known? y.known?, hpair, Option.toList_some,
    Ty.joined_singleton hresult.isNever]
  exact hresult

theorem unary_isResult {op : UnaryOp} {x z : Integer} {n : Int}
    (hz : Ty.unaryPart op x.value.tag x.toTy = some z.toTy) (hbits : z.bits = x.bits)
    (hn : z.toInt ≡ n [ZMOD 2 ^ x.bits]) : IsResult x.bits (.unary table op x.toTy) (some n) := by
  have hresult : IsResult x.bits z.toTy (some n) := ⟨z, rfl, hbits, hn⟩
  rw [Value.unary_known x.known?, hz, Option.toList_some, Ty.joined_singleton hresult.isNever]
  exact hresult

/-- The negated integer, in the same width. -/
def neg : Integer → Integer
  | number n => number (-n)
  | long n => long (-n)

/-- The integer with all bits flipped, in the same width. -/
def flip : Integer → Integer
  | number n => number (~~~n)
  | long n => long (~~~n)

theorem neg_modEq : x.neg.toInt ≡ -x.toInt [ZMOD 2 ^ x.bits] := by
  cases x with
  | number n | long n => exact Word.neg_modEq n.toBitVec

theorem flip_modEq : x.flip.toInt ≡ x.toInt.lnot [ZMOD 2 ^ x.bits] := by
  cases x with
  | number n | long n => exact Word.not_modEq n.toBitVec

end Integer

open Integer in
/-- Operators fold known integers exactly, in two's complement: the result has the wider of both
widths and is congruent to the result on all integers modulo that power of two. A division by zero
is not folded. -/
theorem integers_fold_exactly (table : DeclTable) (x y : Integer) :
    (∀ op : BinaryOp, op.isComparison = false →
      IsResult (max x.bits y.bits) (Ty.binary table op x.toTy y.toTy)
        (op.onInt? (max x.bits y.bits) x.toInt y.toInt)) ∧
      IsResult x.bits (Ty.unary table .neg x.toTy) (some (-x.toInt)) ∧
      IsResult x.bits (Ty.unary table .not x.toTy) (some x.toInt.lnot) ∧
      IsResult x.bits (Ty.unary table .bitNot x.toTy) (some x.toInt.lnot) := by
  have hneg : Ty.unaryPart .neg x.value.tag x.toTy = some x.neg.toTy := by
    simp only [Ty.unaryPart, kinds, if_true, firstNum?]
    cases x <;> rfl
  have hnot : Ty.unaryPart .not x.value.tag x.toTy = some x.flip.toTy := by
    simp only [Ty.unaryPart, kinds, if_true, firstNum?, Bool.false_eq_true, if_false]
    cases x <;> rfl
  have hflip : Ty.unaryPart .bitNot x.value.tag x.toTy = some x.flip.toTy := by
    simp only [Ty.unaryPart, kinds, if_true, firstNum?]
    cases x <;> rfl
  have hbits : x.neg.bits = x.bits ∧ x.flip.bits = x.bits := by cases x <;> exact ⟨rfl, rfl⟩
  exact ⟨fun op hop => binary_isResult table hop x y,
    unary_isResult table hneg hbits.1 x.neg_modEq, unary_isResult table hnot hbits.2 x.flip_modEq,
    unary_isResult table hflip hbits.2 x.flip_modEq⟩

open Integer in
/-- The least 32-bit integer divided by minus one wraps around to itself, with remainder zero, and a
shift of a 32-bit integer by a 64-bit integer goes by its remainder modulo 64. -/
theorem integers_fold_exactly_least :
    let least := number (-2147483648)
    let minusOne := number (-1)
    let amount := long (-31)
    (IsResult 32 (Ty.binary .empty .div least.toTy minusOne.toTy) (some 2147483648) ∧
      Ty.binary .empty .div least.toTy minusOne.toTy = least.toTy) ∧
    (IsResult 32 (Ty.binary .empty .mod least.toTy minusOne.toTy) (some 0) ∧
      Ty.binary .empty .mod least.toTy minusOne.toTy = (number 0).toTy) ∧
    (IsResult 64 (Ty.binary .empty .shr least.toTy amount.toTy) (some (-1)) ∧
      Ty.binary .empty .shr least.toTy amount.toTy = (long (-1)).toTy) := by
  intro least minusOne amount
  have hdiv := (integers_fold_exactly .empty least minusOne).1
  have hshift := (integers_fold_exactly .empty least amount).1
  exact ⟨⟨hdiv .div rfl, by decide +kernel⟩, ⟨hdiv .mod rfl, by decide +kernel⟩,
    ⟨hshift .shr rfl, by decide +kernel⟩⟩

end TypeFlow
