/-
  HeaderReflection.Token.Cursor

  A position in a token stream that only moves forward, and the collection of
  what stands at every occurrence of an identifier.
-/
import HeaderReflection.Token.Stream

namespace HeaderReflection

/-- A position in a token stream. -/
structure Cursor where
  stream : TokenStream
  pos : Nat
  deriving Repr

/-- The position before the first token. -/
def TokenStream.cursor (s : TokenStream) : Cursor :=
  ⟨s, 0⟩

namespace Cursor

/-- Steps past the next identifier `name` and gives its index; stays where it is if there is none. -/
def nextIdent (c : Cursor) (name : Text) : Option Nat × Cursor :=
  match c.stream.findIdent c.pos c.stream.size name with
  | some found => (some found, ⟨c.stream, found + 1⟩)
  | none => (none, c)

/-- Moves to `pos`, unless that lies behind. -/
def advanceTo (c : Cursor) (pos : Nat) : Cursor :=
  ⟨c.stream, max c.pos pos⟩

theorem nextIdent_bounds {c d : Cursor} {name : Text} {found : Nat}
    (h : c.nextIdent name = (some found, d)) :
    d = ⟨c.stream, found + 1⟩ ∧ c.pos ≤ found ∧ found < c.stream.size := by
  unfold nextIdent at h
  split at h
  · next k hk =>
    have hb := TokenStream.findIdent_bounds hk
    simp only [Prod.mk.injEq, Option.some.injEq] at h
    obtain ⟨rfl, rfl⟩ := h
    exact ⟨rfl, hb.1, hb.2.2⟩
  · simp at h

/-- Reads what stands at each identifier `name` in turn. A reading gives its result and the index from
which to go on. -/
def collect {α : Type} (name : Text) (read : Nat → Except ParseError (α × Nat)) (c : Cursor) :
    Except ParseError (List α) :=
  match _h : c.nextIdent name with
  | (none, _) => .ok []
  | (some found, next) => do
    -- The reading may ask to go back, but the cursor stays behind the identifier.
    let (a, resume) ← read found
    let rest ← collect name read (next.advanceTo resume)
    return a :: rest
termination_by c.stream.size - c.pos
decreasing_by
  obtain ⟨rfl, _, _⟩ := nextIdent_bounds _h
  simp only [advanceTo]
  omega

end Cursor

end HeaderReflection
