import QbitNova.Library.CText
import Mathlib.Data.List.TakeWhile

/-! # Words of a text

The words of a text are its longest parts without white space.
-/
namespace CText
variable {c : UInt8} {s t w : Bytes} {ws : List Bytes}

def blank (s : Bytes) : Bool := s.all isspace

def words (s : Bytes) : List Bytes := (s.splitOnP isspace).filter (· ≠ [])

@[simp] theorem words_nil : words [] = [] := by simp [words]

theorem words_append_space (hc : isspace c = true) (s t : Bytes) : words (s ++ c :: t) = words s ++ words t := by
  rw [words,List.splitOnP_append_cons s t hc,List.filter_append]
  rfl

theorem words_cons_space (hc : isspace c = true) (s : Bytes) : words (c :: s) = words s := by
  have h := words_append_space hc [] s
  rwa [words_nil,List.nil_append,List.nil_append] at h

theorem words_blank_append (hs : blank s = true) (t : Bytes) : words (s ++ t) = words t := by
  induction s with
  | nil => rfl
  | cons c s ih =>
    rw [blank,List.all_cons,Bool.and_eq_true] at hs
    rw [List.cons_append,words_cons_space hs.1]
    exact ih hs.2

theorem words_of_blank (hs : blank s = true) : words s = [] := by
  rw [← List.append_nil s,words_blank_append hs,words_nil]

theorem words_append_blank (s : Bytes) (ht : blank t = true) : words (s ++ t) = words s := by
  cases t with
  | nil => rw [List.append_nil]
  | cons c t =>
    rw [blank,List.all_cons,Bool.and_eq_true] at ht
    rw [words_append_space ht.1,words_of_blank ht.2,List.append_nil]

theorem words_of_letters (hne : w ≠ []) (h : ∀ c ∈ w, isspace c = false) : words w = [w] := by
  rw [words,List.splitOnP_eq_singleton h]
  simp [hne]

theorem not_of_dropWhile_eq_cons {p : UInt8 → Bool} (h : s.dropWhile p = c :: t) : p c = false := by
  have hne : s.dropWhile p ≠ [] := by rw [h]; exact List.cons_ne_nil _ _
  simpa [h] using List.head_dropWhile_not p hne

/-- What is left after a run. -/
theorem drop_takeWhile {α : Type*} (p : α → Bool) (l : List α) : l.drop (l.takeWhile p).length = l.dropWhile p := by
  have h : (l.takeWhile p ++ l.dropWhile p).drop (l.takeWhile p).length = l.dropWhile p := List.drop_left
  rwa [List.takeWhile_append_dropWhile] at h

theorem words_dropWhile (s : Bytes) : words (s.dropWhile isspace) = words s := by
  have hfront : blank (s.takeWhile isspace) = true := List.all_takeWhile
  have h := words_blank_append hfront (s.dropWhile isspace)
  rw [List.takeWhile_append_dropWhile] at h
  exact h.symm

/-- The text ends here or goes on with white space. -/
def EndsWord (tail : Bytes) : Prop := ∀ c ∈ tail.head?, isspace c = true

theorem EndsWord.of_blank (h : blank t = true) : EndsWord t :=
  fun c hc => List.all_eq_true.mp h c (List.mem_of_mem_head? hc)

theorem dropWhile_of_blank (h : blank s = true) : s.dropWhile isspace = [] := by
  rw [List.dropWhile_eq_nil_iff]
  exact List.all_eq_true.mp h

theorem blank_append (s t : Bytes) : blank (s ++ t) = (blank s && blank t) := List.all_append

/-- What stands behind a text that is not blank stays when its white space is dropped. -/
theorem dropWhile_append_of_not_blank (h : blank s = false) (t : Bytes) :
    (s ++ t).dropWhile isspace = s.dropWhile isspace ++ t ∧ s.dropWhile isspace ≠ [] := by
  have hne : s.dropWhile isspace ≠ [] := by
    intro hnil
    rw [blank,List.all_eq_true.mpr (List.dropWhile_eq_nil_iff.mp hnil)] at h
    cases h
  exact ⟨by rw [List.dropWhile_append,if_neg (by simpa using hne)],hne⟩

theorem words_word_append (hne : w ≠ []) (h : ∀ c ∈ w, isspace c = false) (htail : EndsWord t) :
    words (w ++ t) = w :: words t := by
  cases t with
  | nil => rw [List.append_nil,words_of_letters hne h,words_nil]
  | cons c rest =>
    have hc := htail c rfl
    rw [words_append_space hc,words_of_letters hne h,words_cons_space hc]
    rfl

/-- A text that is not blank has a first word, which ends where white space starts again. -/
theorem words_of_dropWhile (hd : s.dropWhile isspace = c :: t) :
    words s = (c :: t).takeWhile (fun c => !isspace c) :: words ((c :: t).dropWhile (fun c => !isspace c)) ∧
      EndsWord ((c :: t).dropWhile (fun c => !isspace c)) := by
  have hc := not_of_dropWhile_eq_cons hd
  have hletters : ∀ a ∈ (c :: t).takeWhile (fun c => !isspace c), isspace a = false := by
    intro a ha
    simpa using List.mem_takeWhile_imp ha
  have hends : EndsWord ((c :: t).dropWhile (fun c => !isspace c)) := by
    cases hrest : (c :: t).dropWhile (fun c => !isspace c) with
    | nil =>
      intro b hb
      cases hb
    | cons b rest =>
      intro d hd
      cases hd
      simpa using not_of_dropWhile_eq_cons hrest
  refine ⟨?_,hends⟩
  rw [← words_word_append (by simp [hc]) hletters hends,List.takeWhile_append_dropWhile,← hd,words_dropWhile]

theorem words_cons (h : words s = w :: ws) : ∃ tail, s.dropWhile isspace = w ++ tail ∧
    (s.dropWhile isspace).takeWhile (fun c => !isspace c) = w ∧ blank w = false ∧ words tail = ws ∧
    EndsWord tail := by
  cases hd : s.dropWhile isspace with
  | nil =>
    rw [← words_dropWhile,hd,words_nil] at h
    cases h
  | cons c t =>
    have hc := not_of_dropWhile_eq_cons hd
    obtain ⟨hwords,hends⟩ := words_of_dropWhile hd
    rw [hwords] at h
    obtain ⟨hw,hws⟩ := List.cons.inj h
    refine ⟨_,?_,hw,?_,hws,hends⟩
    · rw [← hw]
      exact List.takeWhile_append_dropWhile.symm
    · rw [← hw]
      simp [blank,hc]

theorem words_eq_nil_iff (s : Bytes) : words s = [] ↔ blank s = true := by
  constructor
  · intro h
    cases hd : s.dropWhile isspace with
    | nil =>
      rw [blank,List.all_eq_true]
      exact List.dropWhile_eq_nil_iff.mp hd
    | cons c t =>
      rw [(words_of_dropWhile hd).1] at h
      cases h
  · exact words_of_blank

/-- A class of bytes without white space is not continued behind the end of a word. -/
theorem takeWhile_append_ends {p : UInt8 → Bool} (hp : ∀ c, isspace c = true → p c = false) (s : Bytes)
    (ht : EndsWord t) : (s ++ t).takeWhile p = s.takeWhile p ∧ (s ++ t).dropWhile p = s.dropWhile p ++ t := by
  induction s with
  | nil =>
    cases t with
    | nil => exact ⟨rfl,rfl⟩
    | cons c rest => simp [hp c (ht c rfl)]
  | cons a s ih =>
    rw [List.cons_append,List.takeWhile_cons,List.takeWhile_cons,List.dropWhile_cons,List.dropWhile_cons,ih.1,ih.2]
    cases p a with
    | true => exact ⟨rfl,rfl⟩
    | false => exact ⟨rfl,rfl⟩

theorem sign_append (hs : s ≠ []) (t : Bytes) : sign (s ++ t) = ((sign s).1, (sign s).2 ++ t) := by
  cases s with
  | nil => exact absurd rfl hs
  | cons c s =>
    by_cases hminus : c = 45
    · subst hminus
      rfl
    by_cases hplus : c = 43
    · subst hplus
      rfl
    · simp [sign,hminus,hplus]

theorem mem_sign (hc : c ∈ s) : c = 45 ∨ c = 43 ∨ c ∈ (sign s).2 := by
  unfold sign
  split
  · rcases List.mem_cons.mp hc with h | h
    · exact Or.inl h
    · exact Or.inr (Or.inr h)
  · rcases List.mem_cons.mp hc with h | h
    · exact Or.inr (Or.inl h)
    · exact Or.inr (Or.inr h)
  · exact Or.inr (Or.inr hc)

/-- Together the words hold all that is not white space. -/
theorem flatten_words (s : Bytes) : (words s).flatten = s.filter (fun c => !isspace c) := by
  rw [words,List.flatten_filter_ne_nil]
  induction s with
  | nil => rfl
  | cons c s ih =>
    rw [List.splitOnP_cons_eq_if_modifyHead]
    cases hc : isspace c with
    | true =>
      rw [if_pos rfl,List.flatten_cons,List.nil_append,List.filter_cons_of_neg (by simp [hc])]
      exact ih
    | false =>
      obtain ⟨first,rest,hsplit⟩ := List.exists_cons_of_ne_nil (List.splitOnP_ne_nil isspace s)
      rw [hsplit,List.flatten_cons] at ih
      rw [if_neg Bool.false_ne_true,hsplit,List.modifyHead_cons,List.flatten_cons,List.cons_append,ih,
        List.filter_cons_of_pos (by simp [hc])]

theorem mem_words_of_mem (hmem : c ∈ s) (hc : isspace c = false) : ∃ w ∈ words s, c ∈ w := by
  have h : c ∈ (words s).flatten := by
    rw [flatten_words]
    exact List.mem_filter.mpr ⟨hmem,by rw [hc]; rfl⟩
  exact List.mem_flatten.mp h

/-- What is left of a text from the first place where the other one stands in it. -/
def strstr (needle : Bytes) : Bytes → Option Bytes
  | [] => if needle = [] then some [] else none
  | c :: rest => if needle <+: c :: rest then some (c :: rest) else strstr needle rest

theorem strstr_isSome (needle s : Bytes) : (strstr needle s).isSome = true ↔ needle <:+: s := by
  induction s with
  | nil =>
    rw [strstr,List.infix_nil]
    split <;> simp [*]
  | cons c s ih =>
    rw [strstr,List.infix_cons_iff,← ih]
    split <;> simp [*]

/-- A text without a certain byte cannot reach across it. -/
theorem infix_across (hc : c ∉ w) (s t : Bytes) : w <:+: s ++ c :: t ↔ w <:+: s ∨ w <:+: t := by
  have hfront : ∀ s, w <+: s ++ c :: t → w <+: s := by
    intro s h
    have hnext : s ++ [c] <+: s ++ c :: t := ⟨t,by simp⟩
    rcases List.prefix_or_prefix_of_prefix h hnext with hshort | hlong
    · rcases List.prefix_concat_iff.mp hshort with heq | hprefix
      · exact absurd (by simp [heq]) hc
      · exact hprefix
    · exact absurd (hlong.subset (by simp)) hc
  constructor
  · intro h
    induction s with
    | nil =>
      rcases List.infix_cons_iff.mp h with hprefix | hinfix
      · exact Or.inl (hfront [] hprefix).isInfix
      · exact Or.inr hinfix
    | cons d s ih =>
      rcases List.infix_cons_iff.mp h with hprefix | hinfix
      · exact Or.inl (hfront (d :: s) hprefix).isInfix
      · exact (ih hinfix).imp_left fun hs => List.infix_cons hs
  · rintro (hs | ht)
    · exact hs.trans (List.prefix_append s (c :: t)).isInfix
    · exact ht.trans ((List.suffix_cons c t).trans (List.suffix_append s (c :: t))).isInfix

/-- Nor across white space, if it has none itself. -/
theorem infix_blank_append (hw : ∀ c ∈ w, isspace c = false) (hs : ∀ c ∈ s, isspace c = true) (t : Bytes) :
    w <:+: s ++ t ↔ w <:+: t := by
  induction s with
  | nil => rw [List.nil_append]
  | cons c s ih =>
    have hc : c ∉ w := fun hmem => Bool.false_ne_true ((hw c hmem).symm.trans (hs c List.mem_cons_self))
    have hacross := infix_across hc [] (s ++ t)
    rw [List.nil_append,ih fun d hd => hs d (List.mem_cons_of_mem c hd)] at hacross
    rw [List.cons_append,hacross,List.infix_nil,or_iff_right_iff_imp]
    rintro rfl
    exact List.nil_infix

theorem infix_across_blank (hw : ∀ c ∈ w, isspace c = false) (ht : ∀ c ∈ t, isspace c = true) (hne : t ≠ [])
    (s rest : Bytes) : w <:+: s ++ (t ++ rest) ↔ w <:+: s ∨ w <:+: rest := by
  obtain ⟨c,t,rfl⟩ := List.exists_cons_of_ne_nil hne
  have hc : c ∉ w := fun hmem => Bool.false_ne_true ((hw c hmem).symm.trans (ht c List.mem_cons_self))
  rw [List.cons_append,infix_across hc,infix_blank_append hw fun d hd => ht d (List.mem_cons_of_mem c hd)]

end CText
