import Mathlib.Data.List.TakeWhile
import PacketTrust.Text.Blank

/-! Text without the blanks around it. Whatever stands between blanks, and neither begins nor ends
with one, is what trimming leaves. -/

namespace PacketTrust.Text

variable {text body : List Char}

structure Trimmed (text body : List Char) : Prop where
  around : ∃ front back, text = front ++ body ++ back ∧ (∀ c ∈ front, isBlank c) ∧
    ∀ c ∈ back, isBlank c
  first : ∀ c ∈ body.head?, isBlank c = false
  last : ∀ c ∈ body.getLast?, isBlank c = false

theorem trimStart_append {front rest : List Char} (hfront : ∀ c ∈ front, isBlank c)
    (hrest : ∀ c ∈ rest.head?, isBlank c = false) : trimStart (front ++ rest) = rest := by
  have hstart : trimStart rest = rest := by
    cases rest with
    | nil => rfl
    | cons c rest => exact List.dropWhile_cons_of_neg (by simp [hrest c rfl])
  unfold trimStart at hstart ⊢
  rw [List.dropWhile_append_of_pos hfront, hstart]

theorem exists_trimStart (text : List Char) :
    (∃ front, text = front ++ trimStart text ∧ ∀ c ∈ front, isBlank c) ∧
      ∀ c ∈ (trimStart text).head?, isBlank c = false := by
  constructor
  · refine ⟨text.takeWhile isBlank, (List.takeWhile_append_dropWhile ..).symm, fun c hc => ?_⟩
    exact List.mem_takeWhile_imp hc
  · intro c hc
    have hhead := List.head?_dropWhile_not isBlank text
    unfold trimStart at hc
    rw [hc] at hhead
    simpa using hhead

theorem trimmed_iff : Trimmed text body ↔ trim text = body := by
  constructor
  · rintro ⟨⟨front, back, rfl, hfront, hback⟩, hfirst, hlast⟩
    have hstart : trimStart (front ++ body ++ back) = body ++ if body = [] then [] else back := by
      by_cases hempty : body = []
      · -- All is blank, and nothing is left for the second end.
        have hall : ∀ c ∈ front ++ back, isBlank c := fun c hc =>
          (List.mem_append.1 hc).elim (hfront c) (hback c)
        have hnone : trimStart (front ++ back ++ []) = [] := trimStart_append hall (by simp)
        simpa [hempty] using hnone
      · rw [if_neg hempty, List.append_assoc]
        apply trimStart_append hfront
        obtain ⟨c, rest, rfl⟩ := List.exists_cons_of_ne_nil hempty
        exact hfirst
    have hend : trimStart (body ++ if body = [] then [] else back).reverse = body.reverse := by
      rw [List.reverse_append]
      apply trimStart_append
      · intro c hc
        split at hc
        · cases hc
        · exact hback c (List.mem_reverse.1 hc)
      · rwa [List.head?_reverse]
    rw [trim, hstart, hend, List.reverse_reverse]
  · rintro rfl
    obtain ⟨⟨front, hfront, hblank⟩, hfirst⟩ := exists_trimStart text
    obtain ⟨⟨back, hback, hblank'⟩, hlast⟩ := exists_trimStart (trimStart text).reverse
    have hsplit : trimStart text = trim text ++ back.reverse := by
      rw [trim, ← List.reverse_append, ← hback, List.reverse_reverse]
    constructor
    case around =>
      refine ⟨front, back.reverse, ?_, hblank, fun c hc => hblank' c (List.mem_reverse.1 hc)⟩
      rw [List.append_assoc, ← hsplit]
      exact hfront
    case first =>
      intro c hc
      apply hfirst
      rw [hsplit, List.head?_append, hc]
      rfl
    case last =>
      intro c hc
      apply hlast
      rwa [trim, List.getLast?_reverse] at hc

theorem trim_eq_self (h : ∀ c ∈ text, isBlank c = false) : trim text = text := by
  apply trimmed_iff.1
  constructor
  case around => exact ⟨[], [], by simp, nofun, nofun⟩
  case first => exact fun c hc => h c (List.mem_of_mem_head? hc)
  case last => exact fun c hc => h c (List.mem_of_mem_getLast? hc)

end PacketTrust.Text
