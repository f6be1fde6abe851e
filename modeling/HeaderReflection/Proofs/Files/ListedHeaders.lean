/-
  HeaderReflection.Proofs.Files.ListedHeaders

  Where the headers of a run lie. Each lies at a place of its own and is listed
  once, and its companion lies beside it, at a place that tells the header's.
  So no two companions share a place, and none lies where a header does.
-/
import HeaderReflection.Proofs.Files.Directory

namespace HeaderReflection

open FileTree Walk HeaderReflection.Path

variable {s t : FileTree} {c : Config} {root path input output g h : Path} {q place d home : Place}
variable {way seen : List Place} {name : Text} {entry : Entry} {start : Start} {rules : List RulesAt}
variable {xs rest : List Text} {links' bound : Nat} {headers : List Path}

/-! ## Places of listed headers -/

theorem Path.names_foldl_join (h : ∀ m ∈ rest, IsName m) :
    Path.names (rest.foldl Path.join path) = Path.names path ++ rest := by
  induction rest generalizing path with
  | nil => simp
  | cons m rest ih =>
      obtain ⟨hm, hrest⟩ := List.forall_mem_cons.1 h
      rw [List.foldl_cons, ih hrest, names_join hm, List.append_assoc]
      rfl

namespace Walk

/-- The names that lead to a header's place from where the walk starts are those that its path adds
to the path of the start. -/
theorem Lies.exists_rest (hlies : Lies t c input d name place path) (hnames : t.WellNamed) :
    ∃ rest, d ++ [name] = place ++ rest ∧ input = rest.foldl Path.join path ∧
      Path.names input = Path.names path ++ rest := by
  obtain ⟨rest, hplace, hinput, hmem⟩ : ∃ rest, d ++ [name] = place ++ rest ∧
      input = rest.foldl Path.join path ∧ ∀ m ∈ rest, Path.IsName m := by
    induction hlies with
    | here hfile hname hinput =>
        exact ⟨[name], rfl, hinput, by simpa using (hnames.isName hfile).1⟩
    | @enter place path dirName hdir _ ih =>
        obtain ⟨rest, hplace, hinput, hmem⟩ := ih
        refine ⟨dirName :: rest, by rw [hplace]; simp, hinput, ?_⟩
        exact List.forall_mem_cons.2 ⟨(hnames.isName hdir).1, hmem⟩
  exact ⟨rest, hplace, hinput, hinput ▸ Path.names_foldl_join hmem⟩

/-- No two headers lie at one place. -/
theorem Lies.unique {input' : Path} {d' : Place} {name' : Text}
    (hlies : Lies t c input d name place path) (hlies' : Lies t c input' d' name' place path)
    (hnames : t.WellNamed) (hsame : d ++ [name] = d' ++ [name']) : input = input' := by
  obtain ⟨rest, hrest, rfl, -⟩ := hlies.exists_rest hnames
  obtain ⟨rest', hrest', rfl, -⟩ := hlies'.exists_rest hnames
  rw [hsame, hrest'] at hrest
  rw [List.append_cancel_left hrest]

end Walk

/-- A header of a run that lies at a place: its path leads there, if it can be asked for, and its
companion lies beside it. -/
structure IsListed (t : FileTree) (c : Config) (way : List Place) (g : Path) (home : Place) :
    Prop where
  named : ∃ d name, home = d ++ [name] ∧ c.isInputName name = true
  located : ∀ q, t.locate false g = .ok q → q = home
  sited : ∀ output, c.companionPath? g = some output → ∃ d stem trail contents,
    home = d ++ [stem ++ c.headerEnding] ∧
      Site t c g output trail home contents d (stem ++ c.companionEnding) ∧
      ∀ q ∈ trail, IsKept t c way q

namespace Keeps

end Keeps

namespace IsListed

/-- The companion's path leads to the same place all through the run. -/
theorem locate_output_eq (hg : IsListed t c way g home) (hkeeps : Keeps t c way s)
    (hcompanion : c.companionPath? g = some output) :
    s.locate false output = t.locate false output := by
  obtain ⟨d, stem, trail, contents, -, hsite, htrail⟩ := hg.sited output hcompanion
  exact hsite.locate_output_eq (hkeeps.sameAt htrail)

end IsListed

end HeaderReflection
