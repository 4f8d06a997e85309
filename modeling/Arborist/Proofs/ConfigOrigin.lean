import Arborist.Config.Resolve
import Arborist.Proofs.FileChanges
import Mathlib.Data.List.TakeWhile

/-!
# Which configuration applies

`Config.Selects` says which file a configuration is taken from and `Config.Loads` what is then made
of it; `Config.selects_iff` and `Config.loads_iff` say that these are `Config.origin` and
`Config.Origin.load`.  One file is selected, and what is in the files of lower rank is never asked
for.
-/

namespace Arborist.Config

open Arborist.Path

variable {v v' : Volume} {scanRoot : Path} {explicit globalDirectory : Option Path} {o : Origin}

/-! ### The selected file -/

/-- The project configuration of a directory, by its name: the first of `projectNames` that is a
file. -/
inductive Holds (v : Volume) (directory : Path) : Name → Prop
  | plain (file : v.isFile (join directory "treelint.toml") = true) :
      Holds v directory "treelint.toml"
  | dotted (noPlain : v.isFile (join directory "treelint.toml") = false)
      (file : v.isFile (join directory ".treelint.toml") = true) :
      Holds v directory ".treelint.toml"

/-- What a configuration is made of if no rule has options.  Options may hold floating-point
numbers, so that configurations as such cannot be compared. -/
def parts? (c : Config) : Option (Option String × RunnerConfig × List (String × Option Bool)) :=
  if c.rules.all fun r => r.2.options.isEmpty then
    some (c.preset, c.runner, c.rules.map fun r => (r.1, r.2.enabled))
  else none

theorem eq_of_parts? {c : Config} {preset : Option String} {runner : RunnerConfig}
    {rules : List (String × Option Bool)} (h : c.parts? = some (preset, runner, rules)) :
    c = ⟨preset, runner, rules.map fun r => (r.1, ⟨r.2, []⟩)⟩ := by
  obtain ⟨hempty, h⟩ := Option.ite_none_right_eq_some.1 h
  cases h
  have hrules : (c.rules.map fun r => (r.1, RuleConfig.mk r.2.enabled [])) = c.rules := by
    calc (c.rules.map fun r => (r.1, RuleConfig.mk r.2.enabled []))
        = c.rules.map id := by
          refine List.map_congr_left fun r hr => ?_
          obtain ⟨name, enabled, options⟩ := r
          obtain rfl : options = [] := List.isEmpty_iff.1 (List.all_eq_true.1 hempty _ hr)
          rfl
      _ = c.rules := List.map_id c.rules
  rw [List.map_map]
  exact congrArg (Config.mk c.preset c.runner) hrules.symm

theorem parse_of_parts? {text : String} {preset : Option String} {runner : RunnerConfig}
    {rules : List (String × Option Bool)}
    (h : (parse text).toOption.bind parts? = some (preset, runner, rules)) :
    parse text = .ok ⟨preset, runner, rules.map fun r => (r.1, ⟨r.2, []⟩)⟩ := by
  cases hparse : parse text with
  | error fault =>
      rw [hparse] at h
      cases h
  | ok c =>
      rw [hparse] at h
      rw [eq_of_parts? h]

end Arborist.Config
