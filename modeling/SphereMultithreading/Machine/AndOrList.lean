import Mathlib.Data.List.Basic

/-! # And-or lists of a command language

Pipelines are joined by `&&` and `||`, which associate to the left with equal precedence. Each is
executed or skipped as a whole, by how the last one that was executed has ended. A flat list of
commands and what joins them is grouped into such a list.
-/

namespace SphereMultithreading.Machine.AndOrList

variable {κ : Type}

inductive Connective where
  | and
  | or
deriving DecidableEq, Repr

/-- What joins two commands of a line. -/
inductive Link where
  | pipe
  | connective (k : Connective)
deriving DecidableEq, Repr

structure Pipeline (κ : Type) where
  first : κ
  others : List κ

namespace Pipeline

def commands (p : Pipeline κ) : List κ := p.first :: p.others

def last (p : Pipeline κ) : κ := p.others.getLastD p.first

end Pipeline

structure AndOr (κ : Type) where
  first : Pipeline κ
  rest : List (Connective × Pipeline κ)

/-- Whether the next pipeline is executed, after one that succeeded or not. -/
def Connective.continues : Connective → Bool → Bool
  | .and, success => success
  | .or, success => !success

/-- The commands executed after a pipeline; a pipeline succeeds if its last command does. -/
def meaningRest (success : κ → Bool) : Bool → List (Connective × Pipeline κ) → List κ
  | _, [] => []
  | previous, (k, p) :: rest =>
      if k.continues previous then p.commands ++ meaningRest success (success p.last) rest
      else meaningRest success previous rest

def AndOr.meaning (success : κ → Bool) (line : AndOr κ) : List κ :=
  line.first.commands ++ meaningRest success (success line.first.last) line.rest

/-- Every pipeline that is not executed is a single command. -/
def SkipsSingles (success : κ → Bool) : Bool → List (Connective × Pipeline κ) → Prop
  | _, [] => True
  | previous, (k, p) :: rest =>
      if k.continues previous then SkipsSingles success (success p.last) rest
      else p.others = [] ∧ SkipsSingles success previous rest

/-- Maximal chains of pipes are pipelines. -/
def group (c : κ) : List (Link × κ) → AndOr κ
  | [] => ⟨⟨c, []⟩, []⟩
  | (.pipe, d) :: rest =>
      let line := group d rest
      ⟨⟨c, line.first.commands⟩, line.rest⟩
  | (.connective k, d) :: rest =>
      let line := group d rest
      ⟨⟨c, []⟩, (k, line.first) :: line.rest⟩

def AndOr.commands (line : AndOr κ) : List κ :=
  line.first.commands ++ line.rest.flatMap fun (_, p) => p.commands

theorem commands_group (c : κ) (rest : List (Link × κ)) :
    (group c rest).commands = c :: rest.map Prod.snd := by
  induction rest generalizing c with
  | nil => rfl
  | cons link rest ih =>
    obtain ⟨_ | k, d⟩ := link
    · exact congrArg (c :: ·) (ih d)
    · exact congrArg (c :: ·) (ih d)

theorem meaningRest_subset (success : κ → Bool) (previous : Bool)
    (rest : List (Connective × Pipeline κ)) :
    meaningRest success previous rest ⊆ rest.flatMap fun (_, p) => p.commands := by
  induction rest generalizing previous with
  | nil => exact List.Subset.refl _
  | cons entry rest ih =>
    obtain ⟨k, p⟩ := entry
    rw [meaningRest, List.flatMap_cons]
    split_ifs
    · exact List.append_subset.mpr ⟨List.subset_append_left ..,
        List.Subset.trans (ih _) (List.subset_append_right ..)⟩
    · exact List.Subset.trans (ih _) (List.subset_append_right ..)

end SphereMultithreading.Machine.AndOrList
