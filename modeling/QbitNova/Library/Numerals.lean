import QbitNova.Library.Words

/-! # Unsigned numerals as the C library reads them

`strtoull` skips blanks, takes a sign and, for the base zero, finds the base from the prefix
of the numeral. What it makes of a whole text is compared with a grammar of numerals.
-/
namespace CText

/-- The value of a digit in the bases up to 36; other characters are digits in none of them. -/
def digitOf (c : UInt8) : ℕ :=
  if isdigit c then c.toNat - 48
  else if 97 ≤ c && c ≤ 122 then c.toNat - 87
  else if 65 ≤ c && c ≤ 90 then c.toNat - 55
  else 36

def digitsIn (base : ℕ) (digits : Bytes) : ℕ := digits.foldl (fun n c => base * n + digitOf c) 0

/-- The base of a numeral without its sign, and the text behind the prefix that states it. -/
def radix (base : ℕ) (s : Bytes) : ℕ × Bytes :=
  match s with
  | 48 :: x :: c :: rest =>
    if (base = 0 ∨ base = 16) ∧ (x = 120 ∨ x = 88) ∧ digitOf c < 16 then (16, c :: rest)
    else if base = 0 then (8, s) else (base, s)
  | 48 :: _ => if base = 0 then (8, s) else (base, s)
  | _ => if base = 0 then (10, s) else (base, s)

/-- The result of a conversion: `converted` says that `end` moved, `rest` is the text at `end`. -/
structure Conversion where
  value : ℕ
  rest : Bytes
  converted : Bool
  outOfRange : Bool
  deriving DecidableEq, Repr

def strtoull (text : Bytes) (base : ℕ) : Conversion :=
  let signed := sign (text.dropWhile isspace)
  let (base, s) := radix base signed.2
  let digits := s.takeWhile (digitOf · < base)
  let rest := s.dropWhile (digitOf · < base)
  if digits = [] then ⟨0, text, false, false⟩
  else if digitsIn base digits ≥ 2 ^ 64 then ⟨2 ^ 64 - 1, rest, true, true⟩
  else ⟨if signed.1 then (2 ^ 64 - digitsIn base digits) % 2 ^ 64 else digitsIn base digits, rest, true, false⟩

example : strtoull (str " -0x1fg") 0 = ⟨2 ^ 64 - 31, str "g", true, false⟩ := by decide
example : strtoull (str "0x") 0 = ⟨0, str "x", true, false⟩ := by decide

/-- The numerals of a base; for the base zero those of the C language. -/
inductive Numeral : ℕ → Bytes → ℕ → Prop
  | digits {base : ℕ} {ds : Bytes} (hbase : base ≠ 0) (hne : ds ≠ []) (h : ∀ c ∈ ds, digitOf c < base) :
      Numeral base ds (digitsIn base ds)
  | decimal {ds : Bytes} (hne : ds ≠ []) (hfirst : ds.head? ≠ some 48) (h : ∀ c ∈ ds, digitOf c < 10) :
      Numeral 0 ds (digitsIn 10 ds)
  | octal {ds : Bytes} (h : ∀ c ∈ ds, digitOf c < 8) : Numeral 0 (48 :: ds) (digitsIn 8 ds)
  | hexadecimal {base : ℕ} {x : UInt8} {ds : Bytes} (hbase : base = 0 ∨ base = 16) (hx : x = 120 ∨ x = 88)
      (hne : ds ≠ []) (h : ∀ c ∈ ds, digitOf c < 16) : Numeral base (48 :: x :: ds) (digitsIn 16 ds)

variable {base n : ℕ} {s text : Bytes}

theorem digitOf_zero : digitOf 48 = 0 := by decide

theorem digitsIn_zero (base : ℕ) (ds : Bytes) : digitsIn base (48 :: ds) = digitsIn base ds := by
  rw [digitsIn,List.foldl_cons,digitOf_zero]
  simp [digitsIn]

/-- A letter of a hexadecimal prefix is no hexadecimal digit. -/
theorem digitOf_marker {x : UInt8} (hx : x = 120 ∨ x = 88) : digitOf x = 33 := by
  rcases hx with rfl | rfl <;> decide

theorem numeral_of_radix (hne : (radix base s).2 ≠ []) (h : ∀ c ∈ (radix base s).2, digitOf c < (radix base s).1) :
    Numeral base s (digitsIn (radix base s).1 (radix base s).2) := by
  have octal : ∀ {ds : Bytes}, base = 0 → (∀ c ∈ 48 :: ds, digitOf c < 8) →
      Numeral base (48 :: ds) (digitsIn 8 (48 :: ds)) := by
    rintro ds rfl hds
    rw [digitsIn_zero]
    exact .octal fun c hc => hds c (List.mem_cons_of_mem _ hc)
  revert hne h
  fun_cases radix base s with
  | case1 x c rest hprefix => exact fun hne h => .hexadecimal hprefix.1 hprefix.2.1 hne h
  | case2 x c rest hprefix hbase => exact fun _ h => octal hbase h
  | case3 x c rest hprefix hbase => exact fun hne h => .digits hbase hne h
  | case4 rest _ hbase => exact fun _ h => octal hbase h
  | case5 rest _ hbase => exact fun hne h => .digits hbase hne h
  | case6 _ hbase _ hzero =>
    subst hbase
    refine fun hne h => .decimal hne (fun hfirst => ?_) h
    obtain ⟨rest,rfl⟩ := List.head?_eq_some_iff.mp hfirst
    exact hzero rest rfl
  | case7 _ hbase => exact fun hne h => .digits hbase hne h

theorem radix_of_numeral (h : Numeral base s n) : (radix base s).2 ≠ [] ∧
    (∀ c ∈ (radix base s).2, digitOf c < (radix base s).1) ∧ digitsIn (radix base s).1 (radix base s).2 = n := by
  cases h with
  | digits hbase hne h =>
    have hradix : radix base s = (base, s) := by
      fun_cases radix base s with
      | case1 x c rest hprefix =>
        have hx := h x (by simp)
        rw [digitOf_marker hprefix.2.1] at hx
        omega
      | case2 | case4 | case6 => contradiction
      | case3 | case5 | case7 => rfl
    rw [hradix]
    exact ⟨hne,h,rfl⟩
  | decimal hne hfirst h =>
    have hradix : radix 0 s = (10, s) := by
      fun_cases radix 0 s with
      | case1 | case2 | case3 | case4 | case5 => simp at hfirst
      | case6 => rfl
      | case7 => contradiction
    rw [hradix]
    exact ⟨hne,h,rfl⟩
  | @octal ds h =>
    have hradix : radix 0 (48 :: ds) = (8, 48 :: ds) := by
      rcases ds with _ | ⟨x,_ | ⟨c,rest⟩⟩
      · rfl
      · rfl
      · rw [radix,if_neg,if_pos rfl]
        rintro ⟨-,hx,-⟩
        have hlt := h x (by simp)
        rw [digitOf_marker hx] at hlt
        omega
    rw [hradix]
    refine ⟨List.cons_ne_nil _ _,fun c hc => ?_,digitsIn_zero 8 ds⟩
    rcases List.mem_cons.mp hc with rfl | hc
    · rw [digitOf_zero]
      exact Nat.succ_pos 7
    · exact h c hc
  | @hexadecimal _ x ds hbase hx hne h =>
    obtain ⟨c,rest,rfl⟩ := List.exists_cons_of_ne_nil hne
    have hradix : radix base (48 :: x :: c :: rest) = (16, c :: rest) := by
      rw [radix,if_pos ⟨hbase,hx,h c List.mem_cons_self⟩]
    rw [hradix]
    exact ⟨hne,h,rfl⟩

/-- A conversion that used the whole text without leaving the range. -/
def Conversion.Whole (c : Conversion) (v : ℕ) : Prop :=
  c.converted = true ∧ c.outOfRange = false ∧ c.rest = [] ∧ c.value = v

theorem takeWhile_eq_of_dropWhile {p : UInt8 → Bool} (h : s.dropWhile p = []) : s.takeWhile p = s := by
  have hsplit := List.takeWhile_append_dropWhile (p := p) (l := s)
  rwa [h,List.append_nil] at hsplit

/-- What remains behind blanks and sign, if it is a numeral, is what the conversion gives. -/
theorem strtoull_whole_signed (v : ℕ) : (strtoull text base).Whole v ↔
    ∃ n, Numeral base (sign (text.dropWhile isspace)).2 n ∧ n < 2 ^ 64 ∧
      v = if (sign (text.dropWhile isspace)).1 then (2 ^ 64 - n) % 2 ^ 64 else n := by
  set signed := sign (text.dropWhile isspace) with hsigned
  constructor
  · rintro ⟨hconverted,hrange,hrest,hvalue⟩
    unfold strtoull at hconverted hrange hrest hvalue
    simp only [← hsigned] at hconverted hrange hrest hvalue
    split_ifs at hconverted hrange hrest hvalue with hdigits hlarge
    all_goals
      rw [takeWhile_eq_of_dropWhile hrest] at hdigits hlarge hvalue
      have hall : ∀ c ∈ (radix base signed.2).2, digitOf c < (radix base signed.2).1 := by
        intro c hc
        have hall := List.dropWhile_eq_nil_iff.mp hrest c hc
        simpa using hall
      exact ⟨_,numeral_of_radix hdigits hall,not_le.mp hlarge,by simp_all⟩
  · rintro ⟨n,hnumeral,hn,rfl⟩
    obtain ⟨hne,hall,hvalue⟩ := radix_of_numeral hnumeral
    have hrest : (radix base signed.2).2.dropWhile (digitOf · < (radix base signed.2).1) = [] :=
      List.dropWhile_eq_nil_iff.mpr fun c hc => by simpa using hall c hc
    have hdigits := takeWhile_eq_of_dropWhile hrest
    have hrun : strtoull text base = ⟨if signed.1 then (2 ^ 64 - n) % 2 ^ 64 else n, [], true, false⟩ := by
      unfold strtoull
      simp only [← hsigned,hdigits,hrest,hvalue]
      rw [if_neg hne,if_neg (not_le.mpr hn)]
    rw [hrun]
    exact ⟨rfl,rfl,rfl,rfl⟩

theorem Numeral.head (hbase : base ≤ 36) (h : Numeral base s n) : ∃ c rest, s = c :: rest ∧ digitOf c < 36 := by
  have digits : ∀ {b : ℕ}, b ≤ 36 → s ≠ [] → (∀ c ∈ s, digitOf c < b) → ∃ c rest, s = c :: rest ∧ digitOf c < 36 := by
    intro b hb hne hall
    obtain ⟨c,rest,rfl⟩ := List.exists_cons_of_ne_nil hne
    exact ⟨c,rest,rfl,(hall c List.mem_cons_self).trans_le hb⟩
  cases h with
  | digits _ hne h => exact digits hbase hne h
  | decimal hne _ h => exact digits (by omega) hne h
  | octal => exact ⟨48,_,rfl,by decide⟩
  | hexadecimal => exact ⟨48,_,rfl,by decide⟩

theorem not_digit {c : UInt8} (h : isspace c = true ∨ c = 43 ∨ c = 45) : digitOf c = 36 := by
  rcases h with h | rfl | rfl
  · have hdigit := isdigit_of_isspace h
    have hbounds := isspace_bounds h
    unfold digitOf
    rw [hdigit,if_neg (by simp),if_neg,if_neg]
    all_goals
      rw [Bool.and_eq_true,decide_eq_true_eq,UInt8.le_iff_toNat_le]
      intro hle
      have hlow := hle.1
      simp only [UInt8.reduceToNat] at hlow
      omega
  · decide
  · decide

/-- The signs a numeral may have. -/
def Signs (signs : Bytes) : Prop := signs = [] ∨ signs = [43] ∨ signs = [45]

/-- The value of a conversion, with its sign. -/
def signedValue (signs : Bytes) (n : ℕ) : ℕ := if signs = [45] then (2 ^ 64 - n) % 2 ^ 64 else n

theorem sign_append_numeral {signs : Bytes} (hbase : base ≤ 36) (hsigns : Signs signs) (h : Numeral base s n) :
    sign (signs ++ s) = (decide (signs = [45]), s) := by
  obtain ⟨c,rest,rfl,hc⟩ := h.head hbase
  rcases hsigns with rfl | rfl | rfl
  · have hplus : c ≠ 43 := by
      rintro rfl
      rw [not_digit (by simp)] at hc
      omega
    have hminus : c ≠ 45 := by
      rintro rfl
      rw [not_digit (by simp)] at hc
      omega
    rw [List.nil_append,sign]
    · rfl
    · exact fun rest h => hminus (List.cons.inj h).1
    · exact fun rest h => hplus (List.cons.inj h).1
  · rfl
  · rfl

/-- Behind the blanks a text goes on with the sign of its numeral. -/
theorem dropWhile_signed {blanks signs : Bytes} (hbase : base ≤ 36) (hblank : blank blanks = true)
    (hsigns : Signs signs) (h : Numeral base s n) : (blanks ++ (signs ++ s)).dropWhile isspace = signs ++ s := by
  obtain ⟨c,rest,rfl,hc⟩ := h.head hbase
  have hspace : isspace c ≠ true := by
    intro hspace
    rw [not_digit (Or.inl hspace)] at hc
    omega
  rw [List.dropWhile_append,dropWhile_of_blank hblank,List.isEmpty_nil,if_pos rfl]
  rcases hsigns with rfl | rfl | rfl
  · exact List.dropWhile_cons_of_neg hspace
  · rfl
  · rfl

theorem sign_signs (s : Bytes) : ∃ signs, Signs signs ∧ s = signs ++ (sign s).2 ∧ (sign s).1 = decide (signs = [45]) := by
  fun_cases sign s with
  | case1 rest => exact ⟨[45],.inr (.inr rfl),rfl,rfl⟩
  | case2 rest => exact ⟨[43],.inr (.inl rfl),rfl,rfl⟩
  | case3 => exact ⟨[],.inl rfl,rfl,rfl⟩

/-- A text is converted whole exactly if it is blanks, a sign and a numeral below the range. -/
theorem strtoull_whole_iff (hbase : base ≤ 36) (v : ℕ) : (strtoull text base).Whole v ↔
    ∃ blanks signs numeral n, text = blanks ++ (signs ++ numeral) ∧ blank blanks = true ∧ Signs signs ∧
      Numeral base numeral n ∧ n < 2 ^ 64 ∧ v = signedValue signs n := by
  rw [strtoull_whole_signed]
  constructor
  · rintro ⟨n,hnumeral,hn,rfl⟩
    obtain ⟨signs,hsigns,htext,hminus⟩ := sign_signs (text.dropWhile isspace)
    refine ⟨text.takeWhile isspace,signs,_,n,?_,?_,hsigns,hnumeral,hn,?_⟩
    · rw [← htext,List.takeWhile_append_dropWhile]
    · exact List.all_takeWhile
    · rw [hminus]
      simp [signedValue]
  · rintro ⟨blanks,signs,numeral,n,rfl,hblank,hsigns,hnumeral,hn,rfl⟩
    rw [dropWhile_signed hbase hblank hsigns hnumeral,sign_append_numeral hbase hsigns hnumeral]
    exact ⟨n,hnumeral,hn,by simp [signedValue]⟩

end CText
