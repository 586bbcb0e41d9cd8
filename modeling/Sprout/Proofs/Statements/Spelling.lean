import Sprout.Proofs.Parsing.Shapes
import Sprout.Proofs.Parsing.Soundness
import Sprout.Proofs.Statements.Runs

namespace Sprout

/-- The identifiers of a run are names, as those of a source are. -/
def Token.Named (run : List Token) : Prop :=
  ∀ t ∈ run, t.kind = .identifier → IsName t.lexeme

/-- The statements of a source are made of names. -/
theorem Source.named_of_statements {source : Source} {tokens : List Token}
    {statements : List Statement} (htokens : source.significant = .ok tokens)
    (hstatements : source.statements tokens = .ok statements) :
    ∀ s ∈ statements, Token.Named s.tokens := by
  obtain ⟨all, hall, -, hmem⟩ := mem_of_statements htokens hstatements
  intro s hs t ht
  exact Token.isName_of_mem_scan hall t (hmem s hs t ht)

namespace Token.Named

variable {run before after : List Token} {mid : Token}

/-- What stands in front of a token of a named run is named. -/
theorem left (h : Named (before ++ mid :: after)) : Named before :=
  fun t ht => h t (by simp [ht])

/-- What stands behind a token of a named run is named. -/
theorem right (h : Named (before ++ mid :: after)) : Named after :=
  fun t ht => h t (by simp [ht])

/-- A named run stays so without the token for its end. -/
theorem body (h : Named run) : Named (Expr.body run) :=
  fun t ht => h t (List.takeWhile_subset _ ht)

end Token.Named

namespace Expr

variable {run : List Token}

/-- An expression that is read from a named run is well spelled. -/
theorem wellSpelled_of_parse {e : Expr} (h : parse run = .ok e) (hrun : Token.Named run) :
    WellSpelled e := by
  obtain ⟨n, -, hderives⟩ := derives_of_parse h
  exact hderives.shaped hrun.body

/-- Expressions that are read from a named run are well spelled. -/
theorem wellSpelled_of_parseList {es : List Expr} (h : parseList run = .ok es)
    (hrun : Token.Named run) : ∀ e ∈ es, WellSpelled e := by
  obtain ⟨n, -, hderives⟩ := derives_of_parseList h
  exact hderives.shaped hrun.body

/-- The sizes in a type that is read from a named run are well spelled. -/
theorem wellSpelled_of_parseType {e : Expr} (h : parseType run = .ok e) (hrun : Token.Named run) :
    ∀ size ∈ e.children, WellSpelled size := by
  obtain ⟨t, name, sizes, ts, hbody, -, rfl, n, -, hderives⟩ := derives_of_parseType h
  have hnamed := hrun.body
  rw [hbody] at hnamed
  exact hderives.shaped fun t ht => hnamed t (by simp [ht])

end Expr

/-- What a declaration consists of is well spelled: its names are names of the source, and so are
those in its sizes and values. -/
theorem Declaration.wellSpelled_of_read {s : Statement} {d : Declaration} (h : read s = .ok d)
    (hs : Token.Named s.tokens) :
    (∀ e ∈ d.initializers, e.WellSpelled) ∧
      ∀ type, d.type = some type → ∀ size ∈ type.children, size.WellSpelled := by
  obtain ⟨-, -, htype, hinitializers⟩ := read_eq_ok h
  have hrest : Token.Named s.rest := fun t ht => hs t (by simp [Statement.tokens, ht])
  have hhead : Token.Named (cut .equal s.rest).1 := by
    rcases cut_cases .equal s.rest with hcut | ⟨before, mid, after, hcut, hrun, -⟩ <;> rw [hcut]
    · exact hrest
    · exact (hrun ▸ hrest).left
  constructor
  · rcases cut_cases .equal s.rest with hcut | ⟨before, mid, after, hcut, hrun, -⟩ <;>
      rw [hcut] at hinitializers
    · rw [← Except.ok.inj hinitializers]
      simp
    · obtain ⟨run, hrequire, hparse⟩ := bind_eq_ok_iff.1 hinitializers
      rw [require_eq_ok hrequire] at hparse
      exact Expr.wellSpelled_of_parseList hparse (hrun ▸ hrest).right
  · intro type hdtype
    rcases cut_cases .colon (cut .equal s.rest).1 with hcut | ⟨before, mid, after, hcut, hrun, -⟩ <;>
      rw [hcut, hdtype] at htype
    · cases htype
    · simp only [readType, bind_eq_ok_iff] at htype
      obtain ⟨run, hrequire, e, hparse, heq⟩ := htype
      cases heq
      rw [require_eq_ok hrequire] at hparse
      exact Expr.wellSpelled_of_parseType hparse (hrun ▸ hhead).right

end Sprout
