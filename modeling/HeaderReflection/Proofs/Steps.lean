/-
  HeaderReflection.Proofs.Steps

  Readings that go through a token stream from index to index. A step gives
  what it adds to the list, and a reading skips the tokens that it does not
  look for. The collection at an identifier is such a reading, and an extraction
  is two of them.
-/
import HeaderReflection.Extraction
import HeaderReflection.Proofs.Stream

namespace HeaderReflection

variable {α : Type} {s : TokenStream} {i j k m bound : Nat} {name : Text}
variable {f : Nat → Except ParseError (List α)} {out out' : List α}
variable {read : Nat → Except ParseError (α × Nat)}

/-! ## Steps of a reading -/

/-- The reading from index `i` on gives the list and goes on from index `j`. -/
def Goes (f : Nat → Except ParseError (List α)) (i j : Nat) (out : List α) : Prop :=
  f i = do
    let later ← f j
    return out ++ later

theorem goes_of_eq (h : f i = f j) : Goes f i j [] := by
  rw [Goes, h]
  exact (bind_pure _).symm

/-- A collection goes on where another one stops. -/
theorem Goes.trans (h : Goes f i j out) (h' : Goes f j k out') : Goes f i k (out ++ out') := by
  rw [Goes, h, h']
  simp only [bind_assoc, pure_bind, List.append_assoc]

/-- A step that gives nothing. -/
theorem Goes.after (h : Goes f j k out) (heq : f i = f j) : Goes f i k out :=
  (goes_of_eq heq).trans h

theorem Goes.before (h : Goes f i j out) (heq : f j = f k) : Goes f i k out := by
  have := h.trans (goes_of_eq heq)
  rwa [List.append_nil] at this

/-- The reading goes past every token before the bound but the given word. -/
def Skips (f : Nat → Except ParseError (List α)) (s : TokenStream) (name : Text) (bound : Nat) :
    Prop :=
  ∀ i, i < bound → s.isIdent i name = false → f i = f (i + 1)

/-- Nothing is collected from tokens that do not have the name. -/
theorem Skips.eq (h : Skips f s name bound) (hij : i ≤ j) (hj : j ≤ bound)
    (hall : ∀ k, i ≤ k → k < j → s.isIdent k name = false) : f i = f j := by
  obtain ⟨d, rfl⟩ := Nat.exists_eq_add_of_le hij
  induction d with
  | zero => rfl
  | succ d ih =>
      rw [ih (by omega) (by omega) fun k hk hkd => hall k hk (by omega)]
      exact h _ (by omega) (hall _ (by omega) (by omega))

/-! ## Collecting at an identifier -/

theorem skips_collect (s : TokenStream) (name : Text)
    (read : Nat → Except ParseError (α × Nat)) :
    Skips (fun i => Cursor.collect name read ⟨s, i⟩) s name s.size := by
  intro i _ hi
  have hfind : s.findIdent i s.size name = s.findIdent (i + 1) s.size name :=
    TokenStream.findIdent_succ hi
  simp only
  cases h : s.findIdent (i + 1) s.size name with
  | none => rw [Cursor.collect_of_none h, Cursor.collect_of_none (hfind.trans h)]
  | some m =>
      have hm := (TokenStream.findIdent_eq_some.1 h).1
      rw [Cursor.collect_of_some h, Cursor.collect_of_some (hfind.trans h)]

/-- What is read at a marker is collected, and the search goes on where the reading asks. -/
theorem goes_collect {a : α} {resume : Nat} (hm : s.isIdent m name)
    (hread : read m = .ok (a, resume)) (hlt : m < resume) :
    Goes (fun i => Cursor.collect name read ⟨s, i⟩) m resume [a] := by
  have hfind := TokenStream.findIdent_self hm (TokenStream.lt_size_of_isIdent hm)
  have hmax : max (m + 1) resume = resume := by omega
  rw [Goes, Cursor.collect_of_some hfind, hread]
  show (do
    let rest ← Cursor.collect name read ⟨s, max (m + 1) resume⟩
    return a :: rest) = _
  rw [hmax]
  rfl

/-- A reading that goes through both parts ends with nothing left. -/
theorem collect_of_goes (h : Goes (fun i => Cursor.collect name read ⟨s, i⟩) 0 m out)
    (h' : Goes (fun i => Cursor.collect name read ⟨s, i⟩) m s.size out') :
    s.cursor.collect name read = .ok (out ++ out') := by
  have hend : Cursor.collect name read ⟨s, s.size⟩ = .ok [] :=
    Cursor.collect_of_none (TokenStream.findIdent_eq_none.2 fun m hm hlt => by omega)
  have hall := h.trans h'
  simp only [Goes, hend] at hall
  rw [TokenStream.cursor, hall]
  exact congrArg Except.ok (List.append_nil _)

/-! ## A whole extraction -/

variable {scopes : ScopeTree} {e : Extraction} {text : Text}

theorem extract_eq_ok : extract s scopes = .ok e ↔
    extractStructs s scopes = .ok e.structs ∧ extractEnums s scopes = .ok e.enums := by
  rcases e with ⟨structs, enums⟩
  simp only [extract, bind_eq_ok]
  constructor
  · rintro ⟨structs', hstructs, enums', henums, h⟩
    cases h
    exact ⟨hstructs, henums⟩
  · rintro ⟨hstructs, henums⟩
    exact ⟨_, hstructs, _, henums, rfl⟩

/-- A header is extracted by one pass after the other. -/
theorem extractSource_eq_ok : extractSource text = .ok e ↔
    ∃ source s, normalize text = .ok source ∧ tokenize source = .ok s ∧
      extract s (ScopeTree.build s) = .ok e := by
  simp only [extractSource, bind_eq_ok]
  constructor
  · rintro ⟨source, hsource, s, hs, h⟩
    exact ⟨source, s, hsource, hs, h⟩
  · rintro ⟨source, s, hsource, hs, h⟩
    exact ⟨source, hsource, s, hs, h⟩

end HeaderReflection
