/-!
# Little-endian words

Code and images store numbers as words of four or eight bytes, the lowest byte first. A word is
written by its digits in base 256; `ofBytes` is the value of a list of such digits, and reading a
word back is taking its value.
-/

-- A power means the core library's also in modules that import algebraic structures with powers of
-- their own.
attribute [instance (2000), default_instance 20000] instPowNat

namespace StackScript.Word

/-- The `k` lowest digits of `n` in base 256, the lowest first. -/
def toBytes : (k n : Nat) → List UInt8
  | 0, _ => []
  | k + 1, n => n.toUInt8 :: toBytes k (n / 256)

/-- The number whose digits in base 256 are given, the lowest first. -/
def ofBytes : List UInt8 → Nat
  | [] => 0
  | b :: bs => b.toNat + 256 * ofBytes bs

def bytes32 (n : UInt32) : List UInt8 := toBytes 4 n.toNat

def bytes64 (n : UInt64) : List UInt8 := toBytes 8 n.toNat

@[simp] theorem length_toBytes (k n : Nat) : (toBytes k n).length = k := by
  induction k generalizing n with
  | zero => rfl
  | succ k ih => simp [toBytes, ih]

/-- Writing and reading keeps a number modulo the size of the word. -/
theorem ofBytes_toBytes (k n : Nat) : ofBytes (toBytes k n) = n % 256 ^ k := by
  induction k generalizing n with
  | zero => simp [toBytes, ofBytes, Nat.mod_one]
  | succ k ih =>
    have h : n.toUInt8.toNat = n % 256 := by simp
    rw [toBytes, ofBytes, ih, h, Nat.pow_succ, Nat.mul_comm (256 ^ k) 256, Nat.mod_mul]

/-- The value of a list of digits is below the size of the word. -/
theorem ofBytes_lt (bs : List UInt8) : ofBytes bs < 256 ^ bs.length := by
  induction bs with
  | nil => simp [ofBytes]
  | cons b bs ih =>
    have hb : b.toNat < 256 := b.toNat_lt
    have : 256 ^ (b :: bs).length = 256 * 256 ^ bs.length := by
      rw [List.length_cons, Nat.pow_succ, Nat.mul_comm]
    rw [this, ofBytes]
    omega

/-- Reading and writing gives the same bytes. -/
theorem toBytes_ofBytes (bs : List UInt8) : toBytes bs.length (ofBytes bs) = bs := by
  induction bs with
  | nil => rfl
  | cons b bs ih =>
    have hb : b.toNat < 256 := b.toNat_lt
    have hd : (b.toNat + 256 * ofBytes bs) / 256 = ofBytes bs := by omega
    have hm : (b.toNat + 256 * ofBytes bs).toUInt8 = b := by
      apply UInt8.toNat_inj.1
      have : (b.toNat + 256 * ofBytes bs).toUInt8.toNat = (b.toNat + 256 * ofBytes bs) % 256 := by
        simp
      omega
    rw [List.length_cons, toBytes, ofBytes, hd, hm, ih]

/-- A number that fits into 32 bits is the value of its word. -/
theorem toNat_toUInt32 {n : Nat} (h : n < 2 ^ 32) : n.toUInt32.toNat = n :=
  UInt32.toNat_ofNat_of_lt' h

theorem toUInt32_toNat (n : UInt32) : n.toNat.toUInt32 = n := UInt32.ofNat_toNat

end StackScript.Word
