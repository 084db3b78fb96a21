namespace CronTimes

/-- Equality up to the case of ASCII letters; every other letter counts as it stands. -/
def sameWord (first second : List Char) : Bool :=
  first.map Char.toLower == second.map Char.toLower

/-- The place of a text among the given words. The empty text is no word, even where one is empty.
Of equal words the first counts. -/
def wordIndex? (words : List String) (text : List Char) : Option Nat :=
  if text = [] then none else words.findIdx? fun word => sameWord word.toList text

/-- The text before and the text after the first occurrence of a mark. -/
def cut? (mark : Char) (text : List Char) : Option (List Char × List Char) :=
  match text.dropWhile (· != mark) with
  | [] => none
  | _ :: rest => some (text.takeWhile (· != mark), rest)

theorem cut?_eq_some_iff {mark : Char} {text before after : List Char} :
    cut? mark text = some (before, after) ↔ text = before ++ mark :: after ∧ mark ∉ before := by
  induction text generalizing before with
  | nil => simp [cut?]
  | cons c text ih =>
    by_cases hc : c = mark
    · subst hc
      cases before with
      | nil => simp [cut?, eq_comm]
      | cons b before =>
        simp only [cut?, bne_self_eq_false, Bool.false_eq_true, not_false_eq_true,
          List.dropWhile_cons_of_neg, List.takeWhile_cons_of_neg, Option.some.injEq, Prod.mk.injEq,
          List.nil_eq, reduceCtorEq, false_and, List.cons_append, List.cons.injEq, List.mem_cons,
          not_or, false_iff]
        rintro ⟨⟨rfl, -⟩, ne, -⟩
        exact ne rfl
    · have step : cut? mark (c :: text) =
          (cut? mark text).map fun parts => (c :: parts.1, parts.2) := by
        simp only [cut?, bne_iff_ne, ne_eq, hc, not_false_eq_true, List.dropWhile_cons_of_pos,
          List.takeWhile_cons_of_pos]
        split <;> rfl
      rw [step, Option.map_eq_some_iff]
      constructor
      · rintro ⟨⟨first, second⟩, found, same⟩
        cases same
        obtain ⟨rfl, free⟩ := ih.mp found
        exact ⟨rfl, by simp [Ne.symm hc, free]⟩
      · rintro ⟨same, free⟩
        cases before with
        | nil => exact absurd (List.cons.inj same).1 hc
        | cons b before =>
          obtain ⟨rfl, rest⟩ := List.cons.inj same
          exact ⟨(before, after), ih.mpr ⟨rest, fun member => free (by simp [member])⟩, rfl⟩

theorem cut?_eq_none_iff {mark : Char} {text : List Char} :
    cut? mark text = none ↔ mark ∉ text := by
  constructor
  · intro h member
    obtain ⟨before, after, same, free⟩ := List.eq_append_cons_of_mem member
    simp [cut?_eq_some_iff.mpr ⟨same, free⟩] at h
  · intro free
    rw [Option.eq_none_iff_forall_ne_some]
    rintro ⟨before, after⟩ h
    exact free ((cut?_eq_some_iff.mp h).1 ▸ by simp)

end CronTimes
