import Mathlib.Tactic.Ring
import Mathlib.Data.List.Basic
import Mathlib.Data.Nat.Bitwise

/-! # Fixed-size frames and little-endian digits

A frame is a byte list that carries its own length. Fields are written by
overwriting a segment that is known to lie inside the frame, so an out-of-range
write cannot be expressed. Digit lists are compared with numbers in both
directions.
-/
namespace LittleEndian

/-- Replace the segment of `buf` that starts at `off` by `xs`. -/
def overwrite (buf : List UInt8) (off : ℕ) (xs : List UInt8) : List UInt8 :=
  buf.take off ++ xs ++ buf.drop (off + xs.length)

theorem length_overwrite {buf xs : List UInt8} {off : ℕ} (h : off + xs.length ≤ buf.length) :
    (overwrite buf off xs).length = buf.length := by
  simp only [overwrite,List.length_append,List.length_take,List.length_drop]
  omega

abbrev Frame (n : ℕ) := {bytes : List UInt8 // bytes.length = n}

/-- A field write; the proof argument keeps it inside the frame. -/
def Frame.write {n : ℕ} (f : Frame n) (off : ℕ) (xs : List UInt8) (h : off + xs.length ≤ n) : Frame n :=
  ⟨overwrite f.val off xs, by rw [length_overwrite (by rw [f.property]; exact h),f.property]⟩

@[simp] theorem Frame.write_val {n : ℕ} (f : Frame n) (off : ℕ) (xs : List UInt8)
    (h : off + xs.length ≤ n) : (f.write off xs h).val = overwrite f.val off xs := rfl

/-- The frame begins with the finished part `done`. -/
def Filled {n : ℕ} (f : Frame n) (done : List UInt8) : Prop := done <+: f.val

theorem Filled.nil {n : ℕ} (f : Frame n) : Filled f [] := List.nil_prefix

/-- Writing directly behind the finished part extends it. -/
theorem Filled.write {n : ℕ} {f : Frame n} {done : List UInt8} {off : ℕ} (hf : Filled f done) (xs : List UInt8)
    (hoff : off = done.length) (h : off + xs.length ≤ n) : Filled (f.write off xs h) (done ++ xs) := by
  obtain ⟨rest,hrest⟩ := hf
  refine ⟨f.val.drop (off + xs.length),?_⟩
  rw [Frame.write_val,overwrite,← hrest,hoff,List.take_left]

theorem Filled.eq {n : ℕ} {f : Frame n} {done : List UInt8} (hf : Filled f done)
    (hlen : done.length = n) : f.val = done :=
  (hf.eq_of_length (hlen.trans f.property.symm)).symm

/-- The `k` least significant bytes, least significant first. -/
def digits : ℕ → ℕ → List UInt8
  | 0, _ => []
  | k + 1, n => UInt8.ofNat n :: digits k (n / 256)

/-- The number a little-endian byte list stands for. -/
def value : List UInt8 → ℕ
  | [] => 0
  | b :: bs => b.toNat + 256 * value bs

@[simp] theorem length_digits (k n : ℕ) : (digits k n).length = k := by
  induction k generalizing n with
  | zero => rfl
  | succ k ih => simp only [digits,List.length_cons,ih]

theorem value_digits (k n : ℕ) : value (digits k n) = n % 256 ^ k := by
  induction k generalizing n with
  | zero => simp [digits,value,Nat.mod_one]
  | succ k ih =>
    have hm : n % 256 ^ (k+1) = n % 256 + 256 * (n / 256 % 256 ^ k) := by
      rw [pow_succ',Nat.mod_mul]
    rw [digits,value,ih,hm]
    simp [UInt8.toNat_ofNat']

theorem digits_value (bs : List UInt8) : digits bs.length (value bs) = bs := by
  induction bs with
  | nil => rfl
  | cons b bs ih =>
    have hb := b.toNat_lt
    have hd : (b.toNat + 256 * value bs) / 256 = value bs := by omega
    have hm : UInt8.ofNat (b.toNat + 256 * value bs) = b := by
      apply UInt8.toNat_inj.mp
      rw [UInt8.toNat_ofNat']
      omega
    simp only [List.length_cons,digits,value,hd,hm,ih]

theorem value_lt (bs : List UInt8) : value bs < 256 ^ bs.length := by
  induction bs with
  | nil => simp [value]
  | cons b bs ih =>
    have hb := b.toNat_lt
    rw [List.length_cons,pow_succ',value]
    omega

theorem value_append (xs ys : List UInt8) : value (xs ++ ys) = value xs + 256 ^ xs.length * value ys := by
  induction xs with
  | nil => simp [value]
  | cons b xs ih =>
    rw [List.cons_append,value,value,ih,List.length_cons,pow_succ']
    ring

/-- Or-ing a byte in above the bytes collected so far appends its digit. -/
theorem value_or_shift (xs : List UInt8) (b : UInt8) :
    value xs ||| b.toNat <<< (xs.length * 8) = value (xs ++ [b]) := by
  have hlt : value xs < 2 ^ (xs.length * 8) := by
    have h := value_lt xs
    rwa [show 256 = 2 ^ 8 from rfl,← pow_mul,Nat.mul_comm] at h
  rw [value_append,Nat.or_comm,← Nat.shiftLeft_add_eq_or_of_lt hlt,Nat.shiftLeft_eq]
  rw [show (256 : ℕ) = 2 ^ 8 from rfl,← pow_mul]
  simp only [value]
  rw [Nat.mul_comm 8 xs.length]
  ring

/-- The accumulated value of the first `k` bytes of a longer input. -/
theorem take_succ_getD {bs : List UInt8} {k : ℕ} (h : k < bs.length) :
    bs.take (k+1) = bs.take k ++ [bs.getD k 0] := by
  rw [List.take_add_one,List.getElem?_eq_getElem h]
  simp [List.getD_eq_getElem?_getD,List.getElem?_eq_getElem h]

end LittleEndian
