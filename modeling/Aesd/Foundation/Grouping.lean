import Mathlib.Data.List.Basic

/-!
# Cutting a sequence of chunks into groups

Chunks are joined one after the other, and a group is closed behind every chunk that contains an
end. Where inside a chunk the end stands does not matter, so the groups depend on how a sequence
is cut into chunks; but a line whose only end is its last element makes one group however it is
cut.
-/

namespace Aesd.Foundation

variable {Element : Type*} {ends : Element → Bool}

/-- The closed groups and the open one, when the group under way already holds `opened`. -/
def cutAfter (ends : Element → Bool) (opened : List Element) :
    List (List Element) → List (List Element) × List Element
  | [] => ([], opened)
  | chunk :: rest =>
    if chunk.any ends then
      ((opened ++ chunk) :: (cutAfter ends [] rest).1, (cutAfter ends [] rest).2)
    else cutAfter ends (opened ++ chunk) rest

@[simp]
theorem cutAfter_nil (opened : List Element) : cutAfter ends opened [] = ([], opened) := rfl

theorem cutAfter_cons_of_end {chunk : List Element} (hend : chunk.any ends = true)
    (opened : List Element) (rest : List (List Element)) :
    cutAfter ends opened (chunk :: rest) =
      ((opened ++ chunk) :: (cutAfter ends [] rest).1, (cutAfter ends [] rest).2) := by
  rw [cutAfter, if_pos hend]

theorem cutAfter_cons_of_open {chunk : List Element} (hopen : chunk.any ends = false)
    (opened : List Element) (rest : List (List Element)) :
    cutAfter ends opened (chunk :: rest) = cutAfter ends (opened ++ chunk) rest := by
  rw [cutAfter, if_neg (ne_true_of_eq_false hopen)]

/-- Cutting goes on where it stopped. -/
theorem cutAfter_append (opened : List Element) (first second : List (List Element)) :
    cutAfter ends opened (first ++ second) =
      ((cutAfter ends opened first).1 ++
          (cutAfter ends (cutAfter ends opened first).2 second).1,
        (cutAfter ends (cutAfter ends opened first).2 second).2) := by
  induction first generalizing opened with
  | nil => rfl
  | cons chunk rest ih =>
    cases hchunk : chunk.any ends with
    | true =>
      rw [List.cons_append, cutAfter_cons_of_end hchunk, cutAfter_cons_of_end hchunk, ih]
      rfl
    | false => rw [List.cons_append, cutAfter_cons_of_open hchunk, cutAfter_cons_of_open hchunk, ih]

theorem flatten_cutAfter (opened : List Element) (chunks : List (List Element)) :
    (cutAfter ends opened chunks).1.flatten ++ (cutAfter ends opened chunks).2 =
      opened ++ chunks.flatten := by
  induction chunks generalizing opened with
  | nil => exact (List.append_nil opened).symm
  | cons chunk rest ih =>
    cases hchunk : chunk.any ends with
    | true =>
      rw [cutAfter_cons_of_end hchunk, List.flatten_cons, List.append_assoc, ih,
        List.nil_append, List.flatten_cons, List.append_assoc]
    | false =>
      rw [cutAfter_cons_of_open hchunk, ih, List.flatten_cons, List.append_assoc]

theorem cutAfter_of_open {chunks : List (List Element)}
    (hopen : chunks.flatten.any ends = false) (opened : List Element) :
    cutAfter ends opened chunks = ([], opened ++ chunks.flatten) := by
  induction chunks generalizing opened with
  | nil => rw [cutAfter_nil, List.flatten_nil, List.append_nil]
  | cons chunk rest ih =>
    rw [List.flatten_cons, List.any_append, Bool.or_eq_false_iff] at hopen
    rw [cutAfter_cons_of_open hopen.1, ih hopen.2, List.flatten_cons, List.append_assoc]

/-- A line whose only end is its last element is one group, however it is cut. -/
theorem cutAfter_line {body : List Element} {last : Element} (hbody : body.any ends = false)
    (hlast : ends last = true) {chunks : List (List Element)}
    (hline : chunks.flatten = body ++ [last]) (opened : List Element) :
    cutAfter ends opened chunks = ([opened ++ (body ++ [last])], []) := by
  induction chunks generalizing opened body with
  | nil => exact absurd hline.symm (List.append_ne_nil_of_right_ne_nil _ (List.cons_ne_nil _ _))
  | cons chunk rest ih =>
    rw [List.flatten_cons] at hline
    rcases List.eq_nil_or_concat rest.flatten with hnil | ⟨body', last', hconcat⟩
    · -- the line ends in this chunk, and only empty chunks follow
      rw [hnil, List.append_nil] at hline
      have hend : chunk.any ends = true := by
        rw [hline, List.any_append, List.any_cons, hlast, Bool.true_or, Bool.or_true]
      have hrest : cutAfter ends [] rest = ([], []) := by
        rw [cutAfter_of_open (by rw [hnil]; rfl), hnil, List.append_nil]
      rw [cutAfter_cons_of_end hend, hrest, hline]
    · rw [List.concat_eq_append] at hconcat
      rw [hconcat, ← List.append_assoc] at hline
      obtain ⟨hbefore, hsame⟩ := List.append_inj' hline rfl
      rw [← hbefore, List.any_append, Bool.or_eq_false_iff] at hbody
      rw [hsame] at hconcat
      rw [cutAfter_cons_of_open hbody.1, ih hbody.2 hconcat, ← hbefore, List.append_assoc,
        List.append_assoc]

end Aesd.Foundation
