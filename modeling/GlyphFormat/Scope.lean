import GlyphFormat.Tree.Walk

/-!
# Scopes

The text of a name depends on whether the program has bound it. A scope answers that question while
an item is written, is told of each item when it is done, and has the last word on whether the
program is sound. A name that an item binds is therefore unknown inside that item.
-/

namespace GlyphFormat

class Scope (σ : Type) where
  /-- Is the name bound now? Asking may leave a trace. -/
  isBound : Text → σ → Bool × σ
  /-- The item is done. -/
  register : Item → σ → σ
  diagnostics : σ → List Diagnostic

/-- A scope that keeps a record of every question, with the number of items done before it. -/
structure Traced (σ : Type) where
  inner : σ
  /-- The questions, the last one first. -/
  asked : List (Text × Nat) := []
  registered : Nat := 0

namespace Traced

/-- The questions in the order in which they were asked. -/
def queries (t : Traced σ) : List (Text × Nat) := t.asked.reverse

instance [Scope σ] : Scope (Traced σ) where
  isBound name t :=
    let (b, s) := Scope.isBound name t.inner
    (b, { t with inner := s, asked := (name, t.registered) :: t.asked })
  register item t :=
    { t with inner := Scope.register item t.inner, registered := t.registered + 1 }
  diagnostics t := Scope.diagnostics t.inner

end Traced

/-- A scope that is told what is bound and what to report. It may learn the names of bindings. -/
structure Preset where
  bound : List Text := []
  learns : Bool := true
  reports : List Diagnostic := []

instance : Scope Preset where
  isBound name s := (s.bound.contains name, s)
  register item s :=
    match item with
    | .binding name _ _ _ =>
      if s.learns && !s.bound.contains name then { s with bound := name :: s.bound } else s
    | _ => s
  diagnostics s := s.reports

end GlyphFormat
