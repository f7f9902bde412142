/-
# `Pyramid.Memory.Tokens` — `strtok`

With one delimiter `strtok` skips the delimiters in front, cuts the token at
the next one and goes on behind it; a run of delimiters counts as one, so no
token is empty and a text that has an empty field, or a delimiter inside a
field, is not cut where it was joined.  `strtok_cons` and `strtok_last` say
when it is.  Call after call `strtok` gives the `tokens` of the text.
-/
import Mathlib.Data.List.TakeWhile
import Mathlib.Data.List.Basic

namespace Pyramid

variable {α : Type} [DecidableEq α] {d : α} {s t r : List α}

/-- The next token of `s` and the text the call after it starts from. -/
def strtok (d : α) (s : List α) : Option (List α × List α) :=
  match s.dropWhile (· = d) with
  | [] => none
  | c :: cs =>
      some ((c :: cs).takeWhile (· ≠ d), ((c :: cs).dropWhile (· ≠ d)).drop 1)

/-- What can come back as a token. -/
def IsToken (d : α) (t : List α) : Prop := t ≠ [] ∧ d ∉ t

instance : Decidable (IsToken d t) := inferInstanceAs (Decidable (_ ∧ _))

theorem strtok_some (h : strtok d s = some (t, r)) : IsToken d t := by
  unfold strtok at h
  split at h
  · cases h
  · next c cs heq =>
      cases h
      have hc : c ≠ d := by
        intro hcd
        have hhead := List.dropWhile_get_zero_not (fun x => decide (x = d)) s
          (by rw [heq]; exact Nat.succ_pos _)
        simp only [heq, List.get_eq_getElem, List.getElem_cons_zero] at hhead
        exact hhead (decide_eq_true hcd)
      constructor
      · simp [hc]
      · intro hd
        have hdiffers := List.mem_takeWhile_imp hd
        simp at hdiffers

theorem strtok_isInfix (h : strtok d s = some (t, r)) : t <:+: s ∧ r <:+ s := by
  unfold strtok at h
  split at h
  · cases h
  · next c cs heq =>
      cases h
      have hskip : c :: cs <:+ s :=
        heq ▸ List.dropWhile_suffix (fun x => decide (x = d))
      have hrest := List.dropWhile_suffix (fun x => decide (x ≠ d)) (l := c :: cs)
      exact ⟨(List.takeWhile_prefix _).isInfix.trans hskip.isInfix,
        ((List.drop_suffix 1 _).trans hrest).trans hskip⟩

/-- A call leaves less of the text for the next one. -/
theorem strtok_shorter (h : strtok d s = some (t, r)) : r.length < s.length := by
  have hne := (strtok_some h).1
  unfold strtok at h
  split at h
  · cases h
  · next c cs heq =>
      cases h
      have hskip :=
        (List.dropWhile_suffix (fun x => decide (x = d)) (l := s)).length_le
      have hcut := congrArg List.length
        (List.takeWhile_append_dropWhile (p := fun x => decide (x ≠ d)) (l := c :: cs))
      have hpos := List.length_pos_of_ne_nil hne
      rw [heq] at hskip
      rw [List.length_append] at hcut
      rw [List.length_drop]
      omega

theorem IsToken.dropWhile (h : IsToken d t) (r : List α) :
    ∃ c cs, (t ++ r).dropWhile (· = d) = c :: cs ∧ c :: cs = t ++ r := by
  obtain ⟨c, cs, rfl⟩ := List.exists_cons_of_ne_nil h.1
  have hc : c ≠ d := fun heq => h.2 (heq ▸ List.mem_cons_self)
  exact ⟨c, cs ++ r, List.dropWhile_cons_of_neg (by simpa using hc), rfl⟩

theorem IsToken.differs (h : IsToken d t) : ∀ a ∈ t, decide (a ≠ d) = true :=
  fun _ ha => decide_eq_true fun heq => h.2 (heq ▸ ha)

/-- A token that another field follows. -/
theorem strtok_cons (h : IsToken d t) (r : List α) :
    strtok d (t ++ d :: r) = some (t, r) := by
  obtain ⟨c, cs, hdrop, heq⟩ := h.dropWhile (d :: r)
  rw [strtok, hdrop]
  simp only [heq]
  rw [List.takeWhile_append_of_pos h.differs, List.dropWhile_append_of_pos h.differs]
  simp

/-- A token at the end of the text. -/
theorem strtok_last (h : IsToken d t) : strtok d t = some (t, []) := by
  obtain ⟨c, cs, hdrop, heq⟩ := h.dropWhile []
  rw [List.append_nil] at hdrop heq
  rw [strtok, hdrop]
  simp only [heq]
  rw [List.takeWhile_eq_self_iff.mpr h.differs,
    List.dropWhile_eq_nil_iff.mpr h.differs, List.drop_nil]

/-! ## All the tokens -/

/-- The fields between the delimiters, without the empty ones. -/
def tokens (d : α) (s : List α) : List (List α) := (s.splitOn d).filter (· ≠ [])

@[simp] theorem tokens_nil : tokens d [] = [] := by
  simp [tokens]

theorem tokens_cons_self (s : List α) : tokens d (d :: s) = tokens d s := by
  simp [tokens, List.splitOn_cons_eq_if_modifyHead]

theorem tokens_last (h : IsToken d t) : tokens d t = [t] := by
  simp [tokens, List.splitOn_eq_singleton h.2, h.1]

theorem tokens_cons (h : IsToken d t) (r : List α) :
    tokens d (t ++ d :: r) = t :: tokens d r := by
  simp [tokens, List.splitOn_append_cons_self, List.splitOn_eq_singleton h.2, h.1]

theorem tokens_dropWhile (s : List α) :
    tokens d (s.dropWhile (· = d)) = tokens d s := by
  induction s with
  | nil => rfl
  | cons c s ih =>
      by_cases hc : c = d
      · subst hc
        rw [List.dropWhile_cons_of_pos (by simp), ih, tokens_cons_self]
      · rw [List.dropWhile_cons_of_neg (by simpa using hc)]

theorem strtok_none (h : strtok d s = none) : tokens d s = [] := by
  unfold strtok at h
  split at h
  · next hnil => rw [← tokens_dropWhile, hnil, tokens_nil]
  · cases h

theorem strtok_tokens (h : strtok d s = some (t, r)) :
    tokens d s = t :: tokens d r := by
  have htoken := strtok_some h
  unfold strtok at h
  split at h
  · cases h
  · next c cs heq =>
      cases h
      rw [← tokens_dropWhile, heq]
      have hcut :=
        (List.takeWhile_append_dropWhile (p := fun a => decide (a ≠ d))
          (l := c :: cs)).symm
      cases hrest : (c :: cs).dropWhile (fun a => decide (a ≠ d)) with
      | nil =>
          rw [hrest, List.append_nil] at hcut
          rw [List.drop_nil, tokens_nil, ← tokens_last htoken, ← hcut]
      | cons b bs =>
          have hb : b = d := by
            have hhead :=
              List.head?_dropWhile_not (fun a => decide (a ≠ d)) (c :: cs)
            rw [hrest] at hhead
            simpa using hhead
          subst hb
          rw [hrest] at hcut
          rw [List.drop_one, List.tail_cons, ← tokens_cons htoken, ← hcut]

/-- A token is a part of the text. -/
theorem tokens_isInfix {ts : List (List α)} :
    ∀ {s : List α}, tokens d s = ts → ∀ t ∈ ts, t <:+: s := by
  induction ts with
  | nil => exact fun _ t ht => absurd ht List.not_mem_nil
  | cons u ts ih =>
      intro s hts t ht
      cases htok : strtok d s with
      | none =>
          rw [strtok_none htok] at hts
          cases hts
      | some x =>
          obtain ⟨t', r⟩ := x
          obtain ⟨htoken, hrest⟩ := strtok_isInfix htok
          obtain ⟨rfl, hmore⟩ :=
            List.cons_eq_cons.mp ((strtok_tokens htok).symm.trans hts)
          rcases List.mem_cons.mp ht with rfl | ht
          · exact htoken
          · exact (ih hmore t ht).trans hrest.isInfix

/-- As many calls as there are tokens give one each. -/
theorem strtok_of_tokens {ts : List (List α)} (h : tokens d s = t :: ts) :
    ∃ r, strtok d s = some (t, r) ∧ tokens d r = ts := by
  cases htok : strtok d s with
  | none =>
      rw [strtok_none htok] at h
      cases h
  | some x =>
      obtain ⟨t', r⟩ := x
      obtain ⟨rfl, hts⟩ := List.cons_eq_cons.mp ((strtok_tokens htok).symm.trans h)
      exact ⟨r, rfl, hts⟩

end Pyramid
