import Mathlib.Data.Finset.Card
import Mathlib.Data.Set.Function
import Mathlib.Order.Interval.Set.Defs

/-! # Numbering by first occurrence

A table that is filled with the elements of a list, each when it is seen for the first time,
numbers them: positions in the table stand for elements, in the order they first occurred.
-/
namespace Numbering
variable {α : Type} [DecidableEq α] {list table : List α} {a b : α}

/-- The positions of the table number the elements of a list by first occurrence. -/
structure Numbers (list table : List α) : Prop where
  bijective : Set.BijOn (fun a => table.idxOf a) {a | a ∈ list} (Set.Iio table.length)
  order : ∀ a ∈ list, ∀ b ∈ list, table.idxOf a < table.idxOf b ↔ list.idxOf a < list.idxOf b

/-- What a table that is filled step by step keeps. -/
structure Filled (list table : List α) : Prop where
  mem : ∀ a, a ∈ table ↔ a ∈ list
  first : table.Pairwise (fun a b => list.idxOf a < list.idxOf b)

theorem Filled.nil : Filled ([] : List α) [] := ⟨fun _ => Iff.rfl,List.Pairwise.nil⟩

/-- An element that was seen before is not entered. -/
theorem Filled.known (h : Filled list table) (hmem : a ∈ list) : Filled (list ++ [a]) table := by
  refine ⟨fun b => ?_,h.first.imp_of_mem fun {b c} hb hc hlt => ?_⟩
  · rw [h.mem,List.mem_append,List.mem_singleton]
    exact ⟨Or.inl,fun hb => hb.elim id fun heq => heq ▸ hmem⟩
  · rwa [List.idxOf_append_of_mem ((h.mem b).mp hb),List.idxOf_append_of_mem ((h.mem c).mp hc)]

theorem Filled.fresh (h : Filled list table) (hnew : a ∉ list) : Filled (list ++ [a]) (table ++ [a]) := by
  have hold : ∀ b ∈ table, (list ++ [a]).idxOf b = list.idxOf b :=
    fun b hb => List.idxOf_append_of_mem ((h.mem b).mp hb)
  refine ⟨fun b => ?_,List.pairwise_append.mpr ⟨?_,List.pairwise_singleton _ _,?_⟩⟩
  · rw [List.mem_append,List.mem_append,h.mem]
  · refine h.first.imp_of_mem fun {b c} hb hc hlt => ?_
    rwa [hold b hb,hold c hc]
  · intro b hb c hc
    rw [List.mem_singleton.mp hc,hold b hb,List.idxOf_append_of_notMem hnew]
    exact (List.idxOf_lt_length_of_mem ((h.mem b).mp hb)).trans_le (Nat.le_add_right _ _)

theorem Filled.nodup (h : Filled list table) : table.Nodup := by
  refine h.first.imp fun hlt heq => ?_
  rw [heq] at hlt
  exact lt_irrefl _ hlt

theorem Filled.length_eq (h : Filled list table) : table.length = list.toFinset.card := by
  rw [← List.toFinset_card_of_nodup h.nodup]
  congr 1
  ext a
  rw [List.mem_toFinset,List.mem_toFinset,h.mem]

/-- Entries stand in the order in which they were first seen. -/
theorem Filled.lt_of_lt (h : Filled list table) (hb : b ∈ list)
    (hlt : table.idxOf a < table.idxOf b) : list.idxOf a < list.idxOf b := by
  have hlast := List.idxOf_lt_length_of_mem ((h.mem b).mpr hb)
  have hpair := List.pairwise_iff_getElem.mp h.first _ _ (hlt.trans hlast) hlast hlt
  rwa [List.getElem_idxOf,List.getElem_idxOf] at hpair

theorem Filled.numbers (h : Filled list table) : Numbers list table := by
  refine ⟨⟨?_,?_,?_⟩,fun a ha b hb => ⟨h.lt_of_lt hb,fun hlt => ?_⟩⟩
  · intro a ha
    exact List.idxOf_lt_length_of_mem ((h.mem a).mpr ha)
  · intro a ha b hb heq
    exact (List.idxOf_inj ((h.mem a).mpr ha)).mp heq
  · intro i hi
    have hlt : i < table.length := hi
    refine ⟨table[i],(h.mem _).mp (List.getElem_mem _),?_⟩
    exact h.nodup.idxOf_getElem i hlt
  · rcases lt_trichotomy (table.idxOf a) (table.idxOf b) with hless | heq | hmore
    · exact hless
    · rw [(List.idxOf_inj ((h.mem a).mpr ha)).mp heq] at hlt
      exact absurd hlt (lt_irrefl _)
    · exact absurd (h.lt_of_lt ha hmore) hlt.asymm

theorem Numbers.mem (h : Numbers list table) : a ∈ table ↔ a ∈ list := by
  constructor
  · intro ha
    obtain ⟨b,hb,heq⟩ := h.bijective.surjOn (Set.mem_Iio.mpr (List.idxOf_lt_length_of_mem ha))
    have hba : b = a := by
      apply (List.idxOf_inj ?_).mp heq
      apply List.idxOf_lt_length_iff.mp
      exact (show table.idxOf b = table.idxOf a from heq) ▸ List.idxOf_lt_length_of_mem ha
    exact hba ▸ hb
  · intro ha
    exact List.idxOf_lt_length_iff.mp (h.bijective.mapsTo ha)

/-- A longer list has at most one element more for each place. -/
theorem card_concat_le (list : List α) (a : α) : (list ++ [a]).toFinset.card ≤ list.toFinset.card + 1 := by
  rw [List.toFinset_append,List.toFinset_cons,List.toFinset_nil]
  exact (Finset.card_union_le _ _).trans (Nat.add_le_add_left (Finset.card_le_one.mpr (by simp)) _)

theorem card_le_append (list rest : List α) : list.toFinset.card ≤ (list ++ rest).toFinset.card := by
  rw [List.toFinset_append]
  exact Finset.card_le_card Finset.subset_union_left

/-- Less than `n` different elements were seen when each element of the second list is reached. -/
def Room (n : ℕ) (seen list : List α) : Prop :=
  ∀ before a after, list = before ++ a :: after → (seen ++ before).toFinset.card < n

theorem room_nil (n : ℕ) (seen : List α) : Room n seen [] := by
  intro before a after h
  cases before <;> cases h

theorem room_cons {n : ℕ} {seen : List α} :
    Room n seen (a :: list) ↔ seen.toFinset.card < n ∧ Room n (seen ++ [a]) list := by
  constructor
  · intro h
    refine ⟨?_,fun before b after heq => ?_⟩
    · have := h [] a list rfl
      rwa [List.append_nil] at this
    · have := h (a :: before) b after (by rw [heq]; rfl)
      rwa [List.append_assoc]
  · rintro ⟨hnow,hlater⟩ before b after heq
    cases before with
    | nil => rwa [List.append_nil]
    | cons c before =>
      cases heq
      have := hlater before b after rfl
      rwa [List.append_assoc] at this

/-- With room for every element there are at most as many different ones as there is room for. -/
theorem Room.card_le {n : ℕ} {list : List α} (h : Room n [] list) : list.toFinset.card ≤ n := by
  rcases List.eq_nil_or_concat list with rfl | ⟨before,a,rfl⟩
  · exact Nat.zero_le _
  · rw [List.concat_eq_append] at h ⊢
    exact (card_concat_le before a).trans (h before a [] rfl)

/-- Where there is no room, some element comes when all places are taken. -/
theorem not_room_iff {n : ℕ} (hcard : list.toFinset.card ≤ n) : ¬ Room n [] list ↔
    ∃ before a after, list = before ++ a :: after ∧ before.toFinset.card = n := by
  constructor
  · intro h
    simp only [Room,not_forall] at h
    obtain ⟨before,a,after,heq,hfull⟩ := h
    refine ⟨before,a,after,heq,?_⟩
    have hle := card_le_append before (a :: after)
    rw [← heq] at hle
    rw [List.nil_append] at hfull
    omega
  · rintro ⟨before,a,after,heq,hfull⟩ h
    have hless := h before a after heq
    rw [List.nil_append,hfull] at hless
    exact lt_irrefl _ hless

end Numbering
