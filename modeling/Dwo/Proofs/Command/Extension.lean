import Dwo.Command.Run
import Mathlib.Data.List.Basic
import Mathlib.Data.List.Induction
import Mathlib.Data.List.TakeWhile
import Mathlib.Tactic.Tauto

/-!
# Extensions of paths

The extension of a path is found by its segments, but a missing one is appended to its text. So
`HasExtension` says of the text what it is to have an extension: there is a name at the start or
behind a slash, all that follows it leads nowhere, and the extension stands behind the last dot of
that name. This is the extension that is found (`pathExtension?_eq_some_iff`).

The main result, `destination_completed_iff`, is about the path under which a product is stored. A
path to which an extension was appended has that extension, unless it ended in a slash: then dot and
extension make a name by themselves, and a dot in front of a name does not count.

* `IsNameAt`: where the name of a path stands in its text, and what is idle behind it;
* `HasExtension`: the extension that such a name has.

Paths are split at slashes, so the proofs go back and forth between segments and texts:
`fileName?_ofText_eq_some_iff` for names, `nameExtension?_eq_some_iff` for the last dot.
-/

namespace Dwo

/-! ### Names of files -/

/-- The end of a path that leads nowhere: slashes, and dots that stand alone behind them. -/
inductive IsIdleEnd : List Char → Prop
  | nil : IsIdleEnd []
  | slash {cs : List Char} : IsIdleEnd cs → IsIdleEnd ('/' :: cs)
  | dot {cs : List Char} : IsIdleEnd cs → IsIdleEnd ('/' :: '.' :: cs)

/-- The file at a path has this name. It stands at the start or behind a slash, and what follows it
leads nowhere. -/
structure IsNameAt (text name : String) : Prop where
  exists_eq : ∃ front back : String, text = front ++ name ++ back ∧
    (front = "" ∨ front.toList.getLast? = some '/') ∧ IsIdleEnd back.toList
  slash_notMem : '/' ∉ name.toList
  notMem : name ∉ ["", ".", ".."]

private theorem Path.isIdle_iff {s : String} :
    isIdle s = true ↔ s.toList = [] ∨ s.toList = ['.'] := by
  rw [isIdle, decide_eq_true_iff, ← String.toList_inj, ← String.toList_inj]
  rfl

/-- The name of the file is the last segment that leads somewhere, unless it leads upwards. -/
theorem Path.fileName?_eq_some_iff {p : Path} {name : String} :
    p.fileName? = some name ↔
      (∃ front back, p.segments = front ++ name :: back ∧ ∀ s ∈ back, isIdle s = true) ∧
        name ∉ ["", ".", ".."] := by
  have hname : name ∉ ["", ".", ".."] ↔ isIdle name = false ∧ name ≠ ".." := by
    simp [isIdle, and_assoc]
  rw [hname, fileName?, Option.filter_eq_some_iff, List.getLast?_filter,
    List.find?_eq_some_iff_append]
  simp only [Bool.not_eq_true', Bool.not_not, decide_eq_true_eq]
  constructor
  · rintro ⟨⟨hidle, back, front, hsegments, hback⟩, hdots⟩
    refine ⟨⟨front.reverse, back.reverse, ?_, by simpa using hback⟩, hidle, hdots⟩
    simpa using List.reverse_eq_iff.mp hsegments
  · rintro ⟨⟨front, back, hsegments, hback⟩, hidle, hdots⟩
    exact ⟨⟨hidle, back.reverse, front.reverse, by simp [hsegments], by simpa using hback⟩, hdots⟩

private theorem Path.segments_ofText_eq_iff {text : String} {segments : List String} :
    (ofText text).segments = segments ↔
      text.toList.splitOn '/' = segments.map String.toList := by
  rw [ofText]
  constructor
  · rintro rfl
    simp [Function.comp_def]
  · intro h
    simp [h, Function.comp_def]

private theorem notMem_of_mem_splitOn {c : Char} {text segment : List Char}
    (h : segment ∈ text.splitOn c) : c ∉ segment := by
  induction text generalizing segment with
  | nil => simp_all
  | cons d text ih =>
    rw [List.splitOn_cons_eq_if_modifyHead] at h
    split at h
    · rcases List.mem_cons.mp h with rfl | h
      · exact List.not_mem_nil
      · exact ih h
    · next hd =>
      obtain ⟨first, rest, hsplit⟩ := List.exists_cons_of_ne_nil (List.splitOn_ne_nil c text)
      rw [hsplit] at h ih
      rcases List.mem_cons.mp h with rfl | h
      · refine List.not_mem_cons_of_ne_of_not_mem ?_ (ih List.mem_cons_self)
        rintro rfl
        exact hd (beq_self_eq_true c)
      · exact ih (List.mem_cons_of_mem first h)

/-- Segments with slashes between them, seen from one of them. -/
theorem intercalate_slash (front back : List (List Char)) (name : List Char) :
    ['/'].intercalate (front ++ name :: back) =
      front.flatMap (· ++ ['/']) ++ name ++ back.flatMap ('/' :: ·) := by
  induction front with
  | nil =>
    induction back generalizing name with
    | nil => simp
    | cons s back ih =>
      have hback := ih s
      rw [List.nil_append] at hback ⊢
      rw [List.intercalate_cons_cons, hback]
      simp
  | cons s front ih =>
    rw [List.cons_append, List.intercalate_cons_of_ne_nil (by simp), ih]
    simp

private theorem getLast?_flatMap_slash (front : List (List Char)) :
    front.flatMap (· ++ ['/']) = [] ∨ (front.flatMap (· ++ ['/'])).getLast? = some '/' := by
  cases front using List.reverseRecOn with
  | nil => exact .inl rfl
  | append_singleton front s => exact .inr (by simp)

/-- What stands in front of a slash is cut by itself. -/
theorem exists_splitOn_append {front : List Char} (h : front = [] ∨ front.getLast? = some '/')
    (cs : List Char) : ∃ segments, (front ++ cs).splitOn '/' = segments ++ cs.splitOn '/' := by
  rcases h with rfl | h
  · exact ⟨[], rfl⟩
  · obtain ⟨before, rfl⟩ := List.getLast?_eq_some_iff.mp h
    exact ⟨before.splitOn '/', by simp [List.splitOn_append_cons_self]⟩

private theorem isIdleEnd_flatMap {back : List (List Char)} (h : ∀ s ∈ back, s = [] ∨ s = ['.']) :
    IsIdleEnd (back.flatMap ('/' :: ·)) := by
  induction back with
  | nil => exact .nil
  | cons s back ih =>
    obtain ⟨hs, hback⟩ := List.forall_mem_cons.mp h
    rcases hs with rfl | rfl
    · exact .slash (ih hback)
    · exact .dot (ih hback)

/-- Behind a name, an end that leads nowhere is cut into segments that lead nowhere. -/
theorem IsIdleEnd.exists_splitOn_eq {name cs : List Char} (h : IsIdleEnd cs) (hname : '/' ∉ name) :
    ∃ back, (name ++ cs).splitOn '/' = name :: back ∧ ∀ s ∈ back, s = [] ∨ s = ['.'] := by
  induction h generalizing name with
  | nil => exact ⟨[], by rw [List.append_nil, List.splitOn_eq_singleton hname], by simp⟩
  | slash _ ih =>
    obtain ⟨back, hsplit, hback⟩ := ih List.not_mem_nil
    refine ⟨[] :: back, ?_, by simpa using hback⟩
    rw [List.splitOn_append_cons_self_of_not_mem hname, ← hsplit, List.nil_append]
  | dot _ ih =>
    have hdot : '/' ∉ ['.'] := by decide
    obtain ⟨back, hsplit, hback⟩ := ih hdot
    refine ⟨['.'] :: back, ?_, by simpa using hback⟩
    rw [List.splitOn_append_cons_self_of_not_mem hname, ← hsplit, List.singleton_append]

/-- **The name that is found by the segments of a path is the name that stands in its text.** -/
theorem fileName?_ofText_eq_some_iff {text name : String} :
    (Path.ofText text).fileName? = some name ↔ IsNameAt text name := by
  rw [Path.fileName?_eq_some_iff]
  constructor
  · rintro ⟨⟨front, back, hsegments, hback⟩, hname⟩
    rw [Path.segments_ofText_eq_iff, List.map_append, List.map_cons] at hsegments
    have hmem : name.toList ∈ text.toList.splitOn '/' := by simp [hsegments]
    have htext := intercalate_slash (front.map String.toList) (back.map String.toList) name.toList
    rw [← hsegments, List.intercalate_splitOn] at htext
    have hidle : ∀ s ∈ back.map String.toList, s = [] ∨ s = ['.'] :=
      List.forall_mem_map.mpr fun s hs => Path.isIdle_iff.mp (hback s hs)
    have hfront := getLast?_flatMap_slash (front.map String.toList)
    have hend := isIdleEnd_flatMap hidle
    generalize (front.map String.toList).flatMap (· ++ ['/']) = before at htext hfront
    generalize (back.map String.toList).flatMap ('/' :: ·) = behind at htext hend
    refine ⟨⟨String.ofList before, String.ofList behind, ?_, ?_, ?_⟩,
      notMem_of_mem_splitOn hmem, hname⟩
    · exact String.toList_inj.mp (by simpa using htext)
    · simpa using hfront
    · simpa using hend
  · rintro ⟨⟨front, back, rfl, hfront, hback⟩, hslash, hname⟩
    obtain ⟨idle, hsplit, hidle⟩ := hback.exists_splitOn_eq hslash
    have hslashes : front.toList = [] ∨ front.toList.getLast? = some '/' := by simpa using hfront
    obtain ⟨segments, hsegments⟩ := exists_splitOn_append hslashes (name.toList ++ back.toList)
    refine ⟨⟨segments.map String.ofList, idle.map String.ofList, ?_, ?_⟩, hname⟩
    · rw [Path.segments_ofText_eq_iff]
      simpa [hsplit] using hsegments
    · exact List.forall_mem_map.mpr fun s hs => Path.isIdle_iff.mpr (by simpa using hidle s hs)

/-! ### Extensions -/

/-- The file at a path has this extension. It is the text behind the last dot of the name, and
something stands in front of that dot. -/
def HasExtension (text extension : String) : Prop :=
  ∃ stem, stem ≠ "" ∧ '.' ∉ extension.toList ∧ IsNameAt text (stem ++ "." ++ extension)

/-- An extension stands behind the last dot of a name, and that dot is not its first
character. -/
private theorem nameExtension?_eq_some_iff {name extension : String} :
    nameExtension? name = some extension ↔
      ∃ stem, stem ≠ "" ∧ '.' ∉ extension.toList ∧ name = stem ++ "." ++ extension := by
  rw [nameExtension?]
  constructor
  · intro h
    have hsplit := List.takeWhile_append_dropWhile (p := (· ≠ '.')) (l := name.toList.reverse)
    have hdot := List.head?_dropWhile_not (· ≠ '.') name.toList.reverse
    have hnotMem : '.' ∉ name.toList.reverse.takeWhile (· ≠ '.') := by
      intro hmem
      simpa using List.mem_takeWhile_imp hmem
    generalize name.toList.reverse.takeWhile (· ≠ '.') = behind at h hsplit hnotMem
    generalize name.toList.reverse.dropWhile (· ≠ '.') = rest at h hsplit hdot
    -- The last dot comes first in `rest`, and what stands in front of it in the name is behind it.
    rcases rest with _ | ⟨c, _ | ⟨d, ds⟩⟩
    · cases h
    · cases h
    · obtain rfl : c = '.' := by simpa using hdot
      have hname := List.reverse_eq_iff.mp hsplit.symm
      refine ⟨String.ofList (d :: ds).reverse, by simp, ?_, ?_⟩
      · simpa [← Option.some.inj h] using hnotMem
      · exact String.toList_inj.mp (by simpa [← Option.some.inj h] using hname)
  · rintro ⟨stem, hstem, hdot, rfl⟩
    have hextension : ∀ c ∈ extension.toList.reverse, (c ≠ '.' : Bool) = true := by
      intro c hc
      simpa using ne_of_mem_of_not_mem (List.mem_reverse.mp hc) hdot
    have hreverse : (stem ++ "." ++ extension).toList.reverse =
        extension.toList.reverse ++ '.' :: stem.toList.reverse := by simp
    obtain ⟨c, cs, hcs⟩ : ∃ c cs, stem.toList.reverse = c :: cs :=
      List.exists_cons_of_ne_nil (by simpa using hstem)
    simp only [hreverse, List.dropWhile_append_of_pos hextension,
      List.takeWhile_append_of_pos hextension, hcs]
    simp

/-- **The extension that is found is the one that stands in the text.** -/
theorem pathExtension?_eq_some_iff {text extension : String} :
    pathExtension? text = some extension ↔ HasExtension text extension := by
  rw [pathExtension?, Option.bind_eq_some_iff, HasExtension]
  simp only [fileName?_ofText_eq_some_iff, nameExtension?_eq_some_iff]
  constructor
  · rintro ⟨_, hname, stem, hstem, hdot, rfl⟩
    exact ⟨stem, hstem, hdot, hname⟩
  · rintro ⟨stem, hstem, hdot, hname⟩
    exact ⟨_, hname, stem, hstem, hdot, rfl⟩

/-! ### Appending an extension -/

private theorem IsIdleEnd.eq_of_mem {cs : List Char} {c : Char} (h : IsIdleEnd cs) (hc : c ∈ cs) :
    c = '/' ∨ c = '.' := by
  induction h with
  | nil => cases hc
  | slash _ ih | dot _ ih =>
    simp only [List.mem_cons] at hc
    tauto

/-- A path that ends neither in a slash nor in a dot ends in the name of the file. -/
theorem IsNameAt.exists_eq_append {text name : String} (h : IsNameAt text name)
    (hend : ∀ c ∈ text.toList.getLast?, c ≠ '/' ∧ c ≠ '.') :
    ∃ front, text = front ++ name := by
  obtain ⟨front, back, rfl, -, hback⟩ := h.exists_eq
  refine ⟨front, ?_⟩
  cases hlast : back.toList.getLast? with
  | none =>
    rw [String.toList_eq_nil_iff.mp (List.getLast?_eq_none_iff.mp hlast), String.append_empty]
  | some c =>
    have hc := hend c (by simp [List.getLast?_append, hlast])
    exact absurd (hback.eq_of_mem (List.mem_of_getLast? hlast)) (not_or.mpr hc)

/-- Every text ends in a segment, which stands at its start or behind a slash. -/
theorem exists_last_segment (cs : List Char) :
    ∃ front segment, cs = front ++ segment ∧ (front = [] ∨ front.getLast? = some '/') ∧
      '/' ∉ segment := by
  induction cs using List.reverseRecOn with
  | nil => exact ⟨[], [], rfl, .inl rfl, List.not_mem_nil⟩
  | append_singleton cs c ih =>
    obtain ⟨front, segment, rfl, hfront, hslash⟩ := ih
    by_cases hc : c = '/'
    · exact ⟨front ++ segment ++ [c], [], by simp, .inr (by simp [hc]), List.not_mem_nil⟩
    · exact ⟨front, segment ++ [c], by simp, hfront, by simpa using ⟨hslash, Ne.symm hc⟩⟩

/-- What is appended to a path is its extension, unless it makes a name of its own. -/
theorem hasExtension_append_iff {p e : String} (hp : p ≠ "") (he : e ≠ "")
    (hdot : '.' ∉ e.toList) (hslash : '/' ∉ e.toList) :
    HasExtension (p ++ "." ++ e) e ↔ p.toList.getLast? ≠ some '/' := by
  have hends (s : String) : ∀ c ∈ (s ++ "." ++ e).toList.getLast?, c ≠ '/' ∧ c ≠ '.' := by
    intro c hc
    rw [String.toList_append, List.getLast?_append_of_ne_nil _ (by simpa using he)] at hc
    have hmem : c ∈ e.toList := List.mem_of_getLast? hc
    exact ⟨ne_of_mem_of_not_mem hmem hslash, ne_of_mem_of_not_mem hmem hdot⟩
  constructor
  · rintro ⟨stem, hstem, -, hname⟩ hlast
    obtain ⟨front, htext⟩ := hname.exists_eq_append (hends p)
    obtain rfl : p = front ++ stem := by
      have hassoc : p ++ ("." ++ e) = front ++ stem ++ ("." ++ e) := by
        simpa only [String.append_assoc] using htext
      exact (String.append_left_inj _).mp hassoc
    rw [String.toList_append, List.getLast?_append_of_ne_nil _ (by simpa using hstem)] at hlast
    have hmem : '/' ∈ stem.toList := List.mem_of_getLast? hlast
    exact hname.slash_notMem (by simp [hmem])
  · intro hlast
    obtain ⟨front, segment, htext, hfront, hsegment⟩ := exists_last_segment p.toList
    have hne : segment ≠ [] := by
      rintro rfl
      rw [List.append_nil] at htext
      rcases hfront with rfl | hfront
      · exact hp (String.toList_eq_nil_iff.mp htext)
      · exact hlast (htext ▸ hfront)
    -- Whatever the segment is, also `.` or `..`, it becomes the stem of a name.
    have hname : String.ofList segment ++ "." ++ e ∉ ["", ".", ".."] := by
      have hend := hends (String.ofList segment)
      simp only [List.mem_cons, List.not_mem_nil, or_false]
      rintro (heq | heq | heq)
      · simp at heq
      · exact (hend '.' (by rw [heq]; rfl)).2 rfl
      · exact (hend '.' (by rw [heq]; rfl)).2 rfl
    refine ⟨String.ofList segment, by simpa using hne, hdot,
      ⟨String.ofList front, "", ?_, by simpa using hfront, .nil⟩, ?_, hname⟩
    · exact String.toList_inj.mp (by simp [htext])
    · simpa using ⟨hsegment, hslash⟩

/-- A path that has the extension is left alone. -/
private theorem withExtension_eq_self_iff {p e : String} :
    withExtension p e = p ↔ HasExtension p e := by
  rw [withExtension, ← pathExtension?_eq_some_iff]
  split
  · next h => exact iff_of_true rfl h
  · next h =>
    refine iff_of_false (fun heq => ?_) h
    have hlength := congrArg String.length heq
    have hdot : ".".length = 1 := rfl
    rw [String.length_append, String.length_append] at hlength
    omega

private theorem withExtension_of_not {p e : String} (h : ¬ HasExtension p e) :
    withExtension p e = p ++ "." ++ e := by
  rw [withExtension, if_neg (pathExtension?_eq_some_iff.not.mpr h)]

/-- A completed path has the extension, unless it had to be added behind a slash. -/
private theorem hasExtension_withExtension_iff {p e : String} (hp : p ≠ "") (he : e ≠ "")
    (hdot : '.' ∉ e.toList) (hslash : '/' ∉ e.toList) :
    HasExtension (withExtension p e) e ↔ HasExtension p e ∨ p.toList.getLast? ≠ some '/' := by
  by_cases h : HasExtension p e
  · rw [withExtension_eq_self_iff.mpr h]
    exact iff_of_true h (.inl h)
  · rw [withExtension_of_not h, hasExtension_append_iff hp he hdot hslash, or_iff_right h]

/-- **An extension that is missing is appended, but behind a slash it does not count.** A product
is stored under the path that was given if that has the extension of the target, and else with a dot
and the extension behind it. The path under which it is stored has the extension exactly if the path
that was given has it already or does not end in a slash; and exactly then it is kept as it is when
it is given itself. -/
theorem destination_completed_iff {o : Options} (ho : o.output ≠ "") :
    let e := o.target.extension
    let again : Options := { o with output := o.destination }
    (HasExtension o.output e → o.destination = o.output) ∧
    (¬ HasExtension o.output e → o.destination = o.output ++ "." ++ e) ∧
    (HasExtension o.destination e ↔
      HasExtension o.output e ∨ o.output.toList.getLast? ≠ some '/') ∧
    (again.destination = o.destination ↔
      HasExtension o.output e ∨ o.output.toList.getLast? ≠ some '/') := by
  intro e again
  obtain ⟨he, hdot, hslash⟩ : e ≠ "" ∧ '.' ∉ e.toList ∧ '/' ∉ e.toList := by
    cases htarget : o.target <;> simp [e, htarget, Target.extension]
  have hcompleted : HasExtension o.destination e ↔
      HasExtension o.output e ∨ o.output.toList.getLast? ≠ some '/' :=
    hasExtension_withExtension_iff ho he hdot hslash
  refine ⟨withExtension_eq_self_iff.mpr, withExtension_of_not, hcompleted, ?_⟩
  exact withExtension_eq_self_iff.trans hcompleted

/-- A directory whose name looks like an extension, with a slash behind it. -/
theorem destination_completed_iff_slash :
    let o : Options := { input := "m", output := "lib/.js/" }
    let again : Options := { o with output := o.destination }
    o.output ≠ "" ∧ o.destination = "lib/.js/.js" ∧ ¬ HasExtension o.destination "js" ∧
      again.destination ≠ o.destination := by
  intro o again
  have ho : o.output ≠ "" := by decide
  have hnone : ¬ HasExtension o.output "js" := by
    rw [← pathExtension?_eq_some_iff]
    decide
  have hneither : ¬ (HasExtension o.output "js" ∨ o.output.toList.getLast? ≠ some '/') :=
    not_or.mpr ⟨hnone, by decide⟩
  obtain ⟨-, happend, hextension, hagain⟩ := destination_completed_iff ho
  exact ⟨ho, happend hnone, hextension.not.mpr hneither, hagain.not.mpr hneither⟩

end Dwo
