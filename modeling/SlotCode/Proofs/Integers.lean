/-
  SlotCode.Proofs.Integers — the integer operations in terms of whole numbers.

  The registers hold words of 32 or 64 bits. What an operation does to them is said here
  about the whole numbers that the words stand for: sums, differences and products are
  exact and then brought back into range by a multiple of `2 ^ w`; quotients go toward
  zero; a shift multiplies or divides by a power of two, whose exponent is the low bits of
  the distance. The one operation on both widths (`IntOp.onBits`) carries the proofs.

  Proved: `arith_follows_integers`, for all operands of both widths, and that the machine
  reports a missing result as a division by zero.
-/

import Mathlib.Algebra.Order.Ring.Int
import Mathlib.Data.Int.ModEq
import SlotCode.Proofs.MachineSteps
import SlotCode.Proofs.SealedCode

namespace SlotCode

namespace Arith

namespace IntOp

/-! ## What the operations are to give -/

/-- The quotient toward zero. The least number divided by -1 is the only quotient out of range; it is the least number
    again. -/
def quotient (w : Nat) (a b : Int) : Int := if a = -2 ^ (w - 1) ∧ b = -1 then -2 ^ (w - 1) else a.tdiv b

/-- The number that the low `k` bits of `b` make. -/
def lowBits (k : Nat) (b : Int) : Nat := (b % 2 ^ k).toNat

/-- `v` is the result of an operation on the numbers `a` and `b` of `w` bits; a shift looks at `k` bits of its distance. -/
def Gives (w k : Nat) (a b v : Int) : IntOp → Prop
  | .add => v = (a + b).bmod (2 ^ w)
  | .sub => v = (a - b).bmod (2 ^ w)
  | .mul => v = (a * b).bmod (2 ^ w)
  | .div => v = quotient w a b
  | .rem => |v| < |b| ∧ (v = 0 ∨ v.sign = a.sign) ∧ quotient w a b * b + v ≡ a [ZMOD 2 ^ w]
  | .and => BitVec.ofInt w v = BitVec.ofInt w a &&& BitVec.ofInt w b
  | .or => BitVec.ofInt w v = BitVec.ofInt w a ||| BitVec.ofInt w b
  | .xor => BitVec.ofInt w v = BitVec.ofInt w a ^^^ BitVec.ofInt w b
  | .shl => v = (a * 2 ^ lowBits k b).bmod (2 ^ w)
  | .shr => v = a / 2 ^ lowBits k b
  | .shru => v = (a % 2 ^ w / 2 ^ lowBits k b).bmod (2 ^ w)

/-- The outcome of an operation is nothing for a division or remainder by zero, and else what the operation is to give. -/
def Follows (w k : Nat) (op : IntOp) (a b : Int) (outcome : Option Int) : Prop :=
  (outcome = none ↔ (op = .div ∨ op = .rem) ∧ b = 0) ∧ ∀ v, outcome = some v → op.Gives w k a b v

/-! ## Words of any width -/

/-- The operation on words of `w` bits. -/
def onBits {w : Nat} (op : IntOp) (a b : BitVec w) : Option (BitVec w) :=
  match op with
  | .add => some (a + b)
  | .sub => some (a - b)
  | .mul => some (a * b)
  | .div => if b = 0#w then none else some (a.sdiv b)
  | .rem => if b = 0#w then none else some (a.srem b)
  | .and => some (a &&& b)
  | .or => some (a ||| b)
  | .xor => some (a ^^^ b)
  | .shl => some (a <<< (b.toNat % w))
  | .shr => some (a.sshiftRight (b.toNat % w))
  | .shru => some (a >>> (b.toNat % w))

section

variable {w k : Nat} (a b : BitVec w)

theorem toInt_emod (a : BitVec w) : a.toInt % 2 ^ w = a.toNat := by
  have hlt : (a.toNat : Int) < 2 ^ w := by exact_mod_cast a.isLt
  have hmod := Int.bmod_emod (x := a.toNat) (m := 2 ^ w)
  rw [← BitVec.toInt_eq_toNat_bmod] at hmod
  push_cast at hmod
  rw [hmod, Int.emod_eq_of_lt (Int.natCast_nonneg _) hlt]

theorem toInt_emod_width (hk : w = 2 ^ k) (b : BitVec w) : b.toInt % w = ((b.toNat % w : Nat) : Int) := by
  have hdvd : (w : Int) ∣ 2 ^ w := by
    rw [show (w : Int) = 2 ^ k by exact_mod_cast hk]
    exact pow_dvd_pow 2 (hk ▸ Nat.lt_two_pow_self.le)
  rw [← Int.emod_emod_of_dvd _ hdvd, toInt_emod, Int.natCast_mod]

/-- A distance counts modulo the width, so for a width of `2 ^ k` bits by its low `k` bits. -/
theorem toNat_mod_eq_lowBits (hk : w = 2 ^ k) (b : BitVec w) : b.toNat % w = lowBits k b.toInt := by
  have hcast : (2 ^ k : Int) = w := by exact_mod_cast hk.symm
  rw [lowBits, hcast, toInt_emod_width hk, Int.toNat_natCast]

/-- The remainder with the sign of the divisor does not see that a distance is negative. -/
theorem toNat_smod_width (hk : w = 2 ^ k) (hfits : 2 * w < 2 ^ w) (b : BitVec w) :
    (b.smod (BitVec.ofNat w w)).toNat = b.toNat % w := by
  have hwidth : (BitVec.ofNat w w).toNat = w := by
    rw [BitVec.toNat_ofNat, Nat.mod_eq_of_lt (by omega)]
  have hpositive : (BitVec.ofNat w w).toInt = w := by
    rw [BitVec.toInt_eq_toNat_of_lt (by omega), hwidth]
  have hsmod : (b.smod (BitVec.ofNat w w)).toInt = ((b.toNat % w : Nat) : Int) := by
    rw [BitVec.toInt_smod, hpositive, Int.fmod_eq_emod_of_nonneg _ (Int.natCast_nonneg w), toInt_emod_width hk]
  have hsmall : b.toNat % w < 2 ^ w := (Nat.mod_le _ _).trans_lt b.isLt
  have hback := toInt_emod (b.smod (BitVec.ofNat w w))
  rw [hsmod, Int.emod_eq_of_lt (Int.natCast_nonneg _) (by exact_mod_cast hsmall)] at hback
  exact_mod_cast hback.symm

theorem toInt_intMin_eq (hw : 0 < w) : (BitVec.intMin w).toInt = -2 ^ (w - 1) := by
  have hlt : 2 ^ (w - 1) < 2 ^ w := Nat.pow_lt_pow_right (by decide) (Nat.sub_lt hw Nat.one_pos)
  rw [BitVec.toInt_intMin, Nat.mod_eq_of_lt hlt]
  push_cast
  rfl

theorem toInt_neg_one (hw : 0 < w) : (-1#w).toInt = -1 := by
  rw [BitVec.neg_one_eq_allOnes, BitVec.toInt_allOnes, if_pos hw]

theorem toInt_sdiv_eq_quotient (hw : 0 < w) : (a.sdiv b).toInt = quotient w a.toInt b.toInt := by
  rw [quotient, ← toInt_intMin_eq hw, ← toInt_neg_one hw]
  simp only [BitVec.toInt_inj]
  split_ifs with h
  · rw [h.1, h.2, BitVec.intMin_sdiv_neg_one]
  · exact BitVec.toInt_sdiv_of_ne_or_ne a b (not_and_or.1 h)

theorem quotient_mul_add_tmod (hw : 0 < w) (x y : Int) : quotient w x y * y + x.tmod y ≡ x [ZMOD 2 ^ w] := by
  unfold quotient
  split_ifs with h
  · -- The quotient is out by twice the least number, a multiple of the modulus.
    obtain ⟨rfl, rfl⟩ := h
    obtain ⟨n, rfl⟩ : ∃ n, w = n + 1 := ⟨w - 1, by omega⟩
    rw [Int.modEq_iff_dvd]
    refine ⟨-1, ?_⟩
    simp only [Nat.add_sub_cancel, Int.tmod_neg, Int.tmod_one, pow_succ]
    omega
  · rw [Int.tdiv_mul_add_tmod]

theorem toInt_shiftLeft_eq (n : Nat) : (a <<< n).toInt = (a.toInt * 2 ^ n).bmod (2 ^ w) := by
  rw [BitVec.toInt_shiftLeft, Nat.shiftLeft_eq, BitVec.toInt_eq_toNat_bmod a]
  simp

theorem toInt_sshiftRight_eq (n : Nat) : (a.sshiftRight n).toInt = a.toInt / 2 ^ n := by
  rw [BitVec.toInt_sshiftRight, Int.shiftRight_eq_div_pow]
  push_cast
  rfl

theorem toInt_ushiftRight_eq (n : Nat) : (a >>> n).toInt = (a.toInt % 2 ^ w / 2 ^ n).bmod (2 ^ w) := by
  rw [BitVec.toInt_eq_toNat_bmod, BitVec.toNat_ushiftRight, Nat.shiftRight_eq_div_pow, toInt_emod]
  push_cast
  rfl

theorem gives_tmod (hw : 0 < w) {x y : Int} (hy : y ≠ 0) : IntOp.rem.Gives w k x y (x.tmod y) := by
  refine ⟨?_, ?_, quotient_mul_add_tmod hw x y⟩
  · rw [Int.abs_eq_natAbs, Int.abs_eq_natAbs, Int.natAbs_tmod]
    exact_mod_cast Nat.mod_lt _ (Int.natAbs_pos.2 hy)
  · rw [Int.sign_tmod]
    split_ifs with hdvd
    · exact .inl (Int.tmod_eq_zero_of_dvd hdvd)
    · exact .inr rfl

theorem Follows.some {op : IntOp} {x y v : Int} (happlies : (op = .div ∨ op = .rem) → y ≠ 0) (h : op.Gives w k x y v) :
    op.Follows w k x y (some v) := by
  refine ⟨?_, fun n hn => ?_⟩
  · simpa using happlies
  · cases hn
    exact h

theorem Follows.none {op : IntOp} (h : op = .div ∨ op = .rem) (x : Int) : op.Follows w k x 0 none :=
  ⟨by simpa using h, fun v hv => by cases hv⟩

/-- An operation on words of `2 ^ k` bits does to the numbers what it is to do. -/
theorem follows_onBits (hk : w = 2 ^ k) (op : IntOp) :
    op.Follows w k a.toInt b.toInt ((op.onBits a b).map BitVec.toInt) := by
  have hw : 0 < w := hk ▸ Nat.two_pow_pos k
  have hpattern : ∀ x : BitVec w, BitVec.ofInt w x.toInt = x := fun _ => BitVec.ofInt_toInt
  have hdivides : ∀ {op : IntOp} {v : BitVec w}, op = .div ∨ op = .rem →
      (b.toInt ≠ 0 → op.Gives w k a.toInt b.toInt v.toInt) →
      op.Follows w k a.toInt b.toInt ((if b = 0#w then Option.none else Option.some v).map BitVec.toInt) := by
    intro op v hop h
    split_ifs with hzero
    · rw [hzero, BitVec.toInt_zero]
      exact .none hop _
    · have hne : b.toInt ≠ 0 := by rwa [← BitVec.toInt_zero, Ne, BitVec.toInt_inj]
      exact .some (fun _ => hne) (h hne)
  cases op with
  | add => exact .some (by simp) (BitVec.toInt_add a b)
  | sub => exact .some (by simp) BitVec.toInt_sub
  | mul => exact .some (by simp) (BitVec.toInt_mul a b)
  | div => exact hdivides (.inl rfl) fun _ => toInt_sdiv_eq_quotient a b hw
  | rem =>
    refine hdivides (.inr rfl) fun hb => ?_
    rw [BitVec.toInt_srem]
    exact gives_tmod hw hb
  | and => exact .some (by simp) (by simp only [Gives, hpattern])
  | or => exact .some (by simp) (by simp only [Gives, hpattern])
  | xor => exact .some (by simp) (by simp only [Gives, hpattern])
  | shl => exact .some (by simp) (by rw [Gives, ← toNat_mod_eq_lowBits hk, toInt_shiftLeft_eq])
  | shr => exact .some (by simp) (by rw [Gives, ← toNat_mod_eq_lowBits hk, toInt_sshiftRight_eq])
  | shru => exact .some (by simp) (by rw [Gives, ← toNat_mod_eq_lowBits hk, toInt_ushiftRight_eq])

end

/-! ## The two widths -/

theorem onInt_eq_onBits (op : IntOp) (a b : Int32) :
    (op.onInt a b).map Int32.toBitVec = op.onBits a.toBitVec b.toBitVec := by
  have hzero : b = 0 ↔ b.toBitVec = 0#32 := Int32.toBitVec_inj.symm
  have hdistance : (b.toBitVec.smod 32).toNat = b.toBitVec.toNat % 32 := toNat_smod_width (k := 5) rfl (by decide) _
  cases op with
  | div => by_cases h : b.toBitVec = 0#32 <;> simp [onInt, onBits, hzero, h]
  | rem => by_cases h : b.toBitVec = 0#32 <;> simp [onInt, onBits, hzero, h]
  | shl => exact congrArg (fun n => some (a.toBitVec <<< n)) hdistance
  | shr => exact congrArg (fun n => some (a.toBitVec.sshiftRight n)) hdistance
  | _ => rfl

theorem onLong_eq_onBits (op : IntOp) (a b : Int64) :
    (op.onLong a b).map Int64.toBitVec = op.onBits a.toBitVec b.toBitVec := by
  have hzero : b = 0 ↔ b.toBitVec = 0#64 := Int64.toBitVec_inj.symm
  have hdistance : (b.toBitVec.smod 64).toNat = b.toBitVec.toNat % 64 := toNat_smod_width (k := 6) rfl (by decide) _
  cases op with
  | div => by_cases h : b.toBitVec = 0#64 <;> simp [onLong, onBits, hzero, h]
  | rem => by_cases h : b.toBitVec = 0#64 <;> simp [onLong, onBits, hzero, h]
  | shl => exact congrArg (fun n => some (a.toBitVec <<< n)) hdistance
  | shr => exact congrArg (fun n => some (a.toBitVec.sshiftRight n)) hdistance
  | _ => rfl

theorem follows_onInt (op : IntOp) (a b : Int32) : op.Follows 32 5 a.toInt b.toInt ((op.onInt a b).map Int32.toInt) := by
  have h := follows_onBits a.toBitVec b.toBitVec (k := 5) rfl op
  rwa [← onInt_eq_onBits, Option.map_map] at h

theorem follows_onLong (op : IntOp) (a b : Int64) : op.Follows 64 6 a.toInt b.toInt ((op.onLong a b).map Int64.toInt) := by
  have h := follows_onBits a.toBitVec b.toBitVec (k := 6) rfl op
  rwa [← onLong_eq_onBits, Option.map_map] at h

end IntOp

end Arith

open Arith

/-- What an instruction does with the outcome of an operation. -/
def settled (pc : Nat) (r : TypedSlot) : Option Value → Except RuntimeError Effect
  | some v => .ok (.write r v)
  | none => .error (.divisionByZero pc)

/-- The second operand of an operation on longs. A shift takes its distance from an int and extends its sign. -/
def Registers.SecondLong (regs : Registers) (op : IntOp) (b : Slot) (y : Int64) : Prop :=
  if op.isShift then ∃ d : Int32, regs.int b = .ok d ∧ y = d.toInt64 else regs.long b = .ok y

namespace Image

variable {im : Image} {m : Machine}

theorem effect_int {a b : Slot} {x y : Int32} (ha : m.registers.int a = .ok x) (hb : m.registers.int b = .ok y) (op : IntOp)
    (r : Slot) : im.effect m (.arith .int op r a b) = settled m.pc ⟨.int, r⟩ ((op.onInt x y).map .int) := by
  simp only [effect, ha, hb, Fault.lift_ok, pure_bind]
  cases op.onInt x y with
  | none => rfl
  | some v => rfl

theorem effect_long {a b : Slot} {x y : Int64} {op : IntOp} (ha : m.registers.long a = .ok x)
    (hb : m.registers.SecondLong op b y) (r : Slot) :
    im.effect m (.arith .long op r a b) = settled m.pc ⟨.long, r⟩ ((op.onLong x y).map .long) := by
  have hresult : m.onLong op r a y = settled m.pc ⟨.long, r⟩ ((op.onLong x y).map .long) := by
    simp only [Machine.onLong, ha, Fault.lift_ok, pure_bind]
    cases op.onLong x y with
    | none => rfl
    | some v => rfl
  rw [← hresult]
  cases hshift : op.isShift with
  | true =>
    obtain ⟨d, hd, rfl⟩ : ∃ d : Int32, m.registers.int b = .ok d ∧ y = d.toInt64 := by
      simpa [Registers.SecondLong, hshift] using hb
    simp only [effect, hshift, hd, Fault.lift_ok, if_true, map_pure, pure_bind]
    rfl
  | false =>
    have hlong : m.registers.long b = .ok y := by simpa [Registers.SecondLong, hshift] using hb
    simp only [effect, hshift, hlong, Fault.lift_ok, Bool.false_eq_true, if_false, pure_bind]
    rfl

/-- The operations on ints and longs follow the whole numbers, for all operands, and so do longs shifted by an int. An
    instruction writes the result, and fails with a division by zero where there is none. -/
theorem arith_follows_integers :
    (∀ (op : IntOp) (a b : Int32), op.Follows 32 5 a.toInt b.toInt ((op.onInt a b).map Int32.toInt)) ∧
    (∀ (op : IntOp) (a b : Int64), op.Follows 64 6 a.toInt b.toInt ((op.onLong a b).map Int64.toInt)) ∧
    (∀ (op : IntOp) (a : Int64) (d : Int32),
      op.Follows 64 6 a.toInt d.toInt ((op.onLong a d.toInt64).map Int64.toInt)) ∧
    ∀ (im : Image) (m : Machine) (op : IntOp) (r a b : Slot),
      (∀ x y, m.registers.int a = .ok x → m.registers.int b = .ok y →
        im.effect m (.arith .int op r a b) = settled m.pc ⟨.int, r⟩ ((op.onInt x y).map .int)) ∧
      (∀ x y, m.registers.long a = .ok x → m.registers.SecondLong op b y →
        im.effect m (.arith .long op r a b) = settled m.pc ⟨.long, r⟩ ((op.onLong x y).map .long)) := by
  refine ⟨IntOp.follows_onInt, IntOp.follows_onLong, fun op a d => ?_, fun im m op r a b => ⟨?_, ?_⟩⟩
  · rw [← Int32.toInt_toInt64 d]
    exact IntOp.follows_onLong op a d.toInt64
  · exact fun x y ha hb => effect_int ha hb op r
  · exact fun x y ha hb => effect_long ha hb r

/-- A machine with the least int, -1 and 0, and a long of ones. -/
def extremes : Machine := { registers := { ints := #[-2147483648, -1, 0], longs := #[-1] }, world := {} }

theorem extremes_follow_integers :
    Image.effect ⟨{}, {}, #[]⟩ extremes (.arith .int .div 0 0 1) = .ok (.write ⟨.int, 0⟩ (.int (-2147483648))) ∧
    Image.effect ⟨{}, {}, #[]⟩ extremes (.arith .int .rem 0 0 2) = .error (.divisionByZero 0) ∧
    Image.effect ⟨{}, {}, #[]⟩ extremes (.arith .long .shru 0 0 1) = .ok (.write ⟨.long, 0⟩ (.long 1)) := by
  obtain ⟨-, -, -, hwrites⟩ := arith_follows_integers
  refine ⟨?_, ?_, ?_⟩
  · exact (hwrites _ extremes .div 0 0 1).1 (-2147483648) (-1) rfl rfl
  · exact (hwrites _ extremes .rem 0 0 2).1 (-2147483648) 0 rfl rfl
  · exact (hwrites _ extremes .shru 0 0 1).2 (-1) (-1) rfl ⟨-1, rfl, rfl⟩

end Image

end SlotCode
