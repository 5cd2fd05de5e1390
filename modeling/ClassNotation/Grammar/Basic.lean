import ClassNotation.Text.Basic

/-! Grammars: partial readers of the front of a text. Runs of characters are taken whole, choice is
ordered, and a part that has been read is never given back except by choice. -/
namespace ClassNotation

/-- A grammar reads a result off the front of a text and leaves a rest, or fails. The rest is
always an end piece of the text, so what was read is a front piece. -/
structure Grammar (α : Type) where
  run : Text → Option (α × Text)
  rest_suffix : ∀ {s a r}, run s = some (a, r) → r <:+ s

namespace Grammar
variable {α β : Type}

protected def pure (a : α) : Grammar α where
  run s := some (a, s)
  rest_suffix h := by cases h; exact List.suffix_refl _

protected def bind (g : Grammar α) (next : α → Grammar β) : Grammar β where
  run s := match g.run s with
    | some (a, r) => (next a).run r
    | none => none
  rest_suffix {s b t} h := by
    split at h
    · next a r hg => exact ((next a).rest_suffix h).trans (g.rest_suffix hg)
    · exact absurd h (by simp)

instance : Monad Grammar where
  pure := Grammar.pure
  bind := Grammar.bind

@[simp] theorem run_pure (a : α) (s : Text) : (pure a : Grammar α).run s = some (a, s) := rfl

theorem run_bind_of_eq_some {g : Grammar α} {next : α → Grammar β} {s r : Text} {a : α}
    (h : g.run s = some (a, r)) : (g >>= next).run s = (next a).run r := by
  change (match g.run s with | some (a, r) => (next a).run r | none => none) = _
  rw [h]

theorem run_bind_of_eq_none {g : Grammar α} {next : α → Grammar β} {s : Text}
    (h : g.run s = none) : (g >>= next).run s = none := by
  change (match g.run s with | some (a, r) => (next a).run r | none => none) = _
  rw [h]

theorem run_bind_eq_some_iff {g : Grammar α} {next : α → Grammar β} {s t : Text} {b : β} :
    (g >>= next).run s = some (b, t) ↔
      ∃ a r, g.run s = some (a, r) ∧ (next a).run r = some (b, t) := by
  cases h : g.run s with
  | none => simp [run_bind_of_eq_none h]
  | some out =>
    obtain ⟨a, r⟩ := out
    rw [run_bind_of_eq_some h]
    constructor
    · intro hn
      exact ⟨a, r, rfl, hn⟩
    · rintro ⟨_, _, he, hn⟩
      cases he
      exact hn

protected def orElse (g : Grammar α) (other : Unit → Grammar α) : Grammar α where
  run s := match g.run s with
    | some out => some out
    | none => (other ()).run s
  rest_suffix {s a r} h := by
    split at h
    · next out hg => cases h; exact g.rest_suffix hg
    · exact (other ()).rest_suffix h

instance : OrElse (Grammar α) := ⟨Grammar.orElse⟩

def optional (g : Grammar α) : Grammar (Option α) := (some <$> g) <|> pure none

def literal (t : Text) : Grammar Text where
  run s := if t.isPrefixOf s then some (t, s.drop t.length) else none
  rest_suffix {s a r} h := by
    split at h
    · cases h; exact List.drop_suffix _ _
    · exact absurd h (by simp)

def oneOf (value? : Char → Option α) : Grammar α where
  run
    | [] => none
    | c :: s => (value? c).map (·, s)
  rest_suffix {s a r} h := by
    match s, h with
    | c :: s, h =>
      obtain ⟨b, _, hb⟩ := Option.map_eq_some_iff.mp h
      cases hb
      exact List.suffix_cons c _

def run0 (p : Char → Bool) : Grammar Text where
  run s := some (s.takeWhile p, s.dropWhile p)
  rest_suffix h := by cases h; exact List.dropWhile_suffix _

def run1 (p : Char → Bool) : Grammar Text where
  run s := if (s.takeWhile p).isEmpty then none else some (s.takeWhile p, s.dropWhile p)
  rest_suffix {s a r} h := by
    split at h
    · exact absurd h (by simp)
    · cases h; exact List.dropWhile_suffix _

def whole (g : Grammar α) (s : Text) : Option α :=
  match g.run s with
  | some (a, []) => some a
  | _ => none

def word : Grammar Text := run1 isWordChar

def blanks : Grammar Text := run0 isBlank

def blanks1 : Grammar Text := run1 isBlank

def padding : Grammar Text := run0 isPadding

def wordPair : Grammar (Text × Text) := do
  let first ← word
  let _ ← blanks1
  let second ← word
  return (first, second)

end Grammar
end ClassNotation
