import Sprout.Compile
import Sprout.Proofs.Domains.Emitting
import Sprout.Proofs.Domains.Grouping
import Sprout.Proofs.Domains.Scanning
import Sprout.Proofs.Domains.Typing
import Sprout.Proofs.Lexing.Tiling
import Sprout.Proofs.Places
import Sprout.Proofs.Places.Tokens

namespace Sprout

open Token

namespace Emission

variable {deny : Bool} {indent : Nat} {e : Emission}

/-- Emits statements in order. Each is located by its first token, and emitted with the demands of
all its partial operations. -/
def run? (deny : Bool) (indent : Nat) (e : Emission) :
    List (Statement.Kind × List Token) → Except (Option (Failure × Statement)) Emission
  | [] => .ok e
  | raw :: rest => do
    let s ← demand (Statement.ofRaw? raw.1 raw.2)
    let e ← (e.step? deny indent s).mapError (Option.map (·, s))
    run? deny indent e rest

/-- Statements are emitted inside the domains of all operations, as long as a line may stand in as
many blocks as there are statements and the places of their tokens fit 32 bits. -/
theorem run?_eq {statements : List Statement}
    (hlead : ∀ s ∈ statements, s.kind = .declaration ∨ s.kind = .initialization →
      s.lead.kind = .keyword .var ∨ s.lead.kind = .keyword .const)
    (hfits : ∀ s ∈ statements, s.StandsIn Position.Fits)
    (h : indent * (e.scopes.depth + statements.length) < 2 ^ 64) :
    run? deny indent e (statements.map Statement.raw) = (run deny e statements).mapError some := by
  induction statements generalizing e with
  | nil => rfl
  | cons s statements ih =>
    rw [List.forall_mem_cons] at hlead hfits
    have hroom : indent * (e.scopes.depth + 1) < 2 ^ 64 := by
      refine lt_of_le_of_lt (Nat.mul_le_mul_left indent ?_) h
      simp
    rw [List.map_cons, run?, run]
    simp only [Statement.raw, Statement.ofRaw?_tokens, demand_some_bind,
      step?_eq hlead.1 hfits.1 hroom]
    cases hstep : e.step deny s with
    | error failure => rfl
    | ok e₁ =>
      have hdepth := depth_of_step hstep
      refine ih hlead.2 hfits.2 (lt_of_le_of_lt (Nat.mul_le_mul_left indent ?_) h)
      rw [List.length_cons]
      omega

/-- Whatever the indent is, statements are emitted as if there was none, or the room for an indent
overflows at one of them. -/
theorem run?_below (e : Emission) (statements : List (Statement.Kind × List Token)) :
    Below (run? deny indent e statements) (run? deny 0 e statements) := by
  induction statements generalizing e with
  | nil => exact .refl _
  | cons raw rest ih =>
    exact .bind (.refl _) fun s => .bind ((step?_below e s).mapError (·, s)) fun e₁ => ih e₁

end Emission

namespace Statement

/-- Where the end of a list of statements is reported: at its last token, if it has one. -/
def endOf (statements : List (Kind × List Token)) : Position :=
  ((statements.getLast?.bind fun raw => raw.2.getLast?).map Token.position).getD .start

/-- The end of a program is reported at the same place whether its statements are gathered in lists
or are statements. -/
theorem endOf_raw (statements : List Statement) :
    endOf (statements.map raw) = endPosition statements := by
  rw [endOf, endPosition, List.getLast?_map]
  cases statements.getLast? with
  | none => rfl
  | some s =>
    obtain ⟨kind, lead, rest⟩ := s
    cases hrest : rest.getLast? <;> simp [raw, tokens, last, List.getLast?_cons, hrest]

/-- Every statement holds a token of its own. -/
theorem length_le_tokensOf (statements : List Statement) :
    statements.length ≤ (Grouping.tokensOf statements).length := by
  induction statements with
  | nil => simp
  | cons s statements ih =>
    simp only [Grouping.tokensOf, List.flatMap_cons, List.length_append, tokens,
      List.length_cons] at ih ⊢
    omega

/-- There are no more statements than tokens, since no statement is empty. -/
theorem length_of_group {ts : List Token} {statements : List Statement}
    (h : group ts = .ok statements) : statements.length ≤ ts.length := by
  obtain ⟨-, -, -, -, hsublist⟩ := pieces_of_group h
  exact (length_le_tokensOf statements).trans hsublist.length_le

end Statement

namespace Source

variable {source : Source} {options : Options} {tokens : List Token} {statements : List Statement}
  {s : Statement}

/-- The tokens that take part in a program. -/
def significant? (source : Source) : Except (Option CompileError) (List Token) := do
  let all ← source.tokens?
  return all.filter Token.isSignificant

/-- The statements of a source, gathered in lists. -/
def statements? (source : Source) (tokens : List Token) :
    Except (Option CompileError) (List (Statement.Kind × List Token)) :=
  (Statement.group? tokens).mapError (Option.map (.malformed source))

/-- The emission of a whole program. -/
def emission? (source : Source) (options : Options) (statements : List (Statement.Kind × List Token)) :
    Except (Option CompileError) Emission := do
  let e ← (Emission.run? options.denyWarnings options.indent {} statements).mapError
    (Option.map source.failure)
  match e.unfinished? with
  | some fault => .error (some (.semantic source fault (Statement.endOf statements) ""))
  | none => .ok e

/-- Compiles a source. -/
def compile? (source : Source) (options : Options) : Except (Option CompileError) Artifact := do
  let tokens ← source.significant?
  let statements ← source.statements? tokens
  let e ← source.emission? options statements
  return {
    code := e.code options
    diagnostics :=
      .summary source.name tokens.length "tokens"
        :: .summary source.name statements.length "instructions"
        :: e.diagnostics }

/-- One line per token. -/
def tokenDump? (source : Source) : Except (Option CompileError) String := do
  let tokens ← source.tokens?
  return String.join (tokens.map fun t =>
    t.position.render ++ "\t" ++ t.kind.label ++ "\t" ++ t.lexeme ++ "\n")

/-- The line of a statement, followed by the trees of its expressions. -/
def block? (source : Source) (raw : Statement.Kind × List Token) :
    Except (Option CompileError) String := do
  let s ← demand (Statement.ofRaw? raw.1 raw.2)
  let runs ← demand s.runs?
  let trees ← (runs.mapM Expr.parse?).mapError (Option.map (.malformed source))
  return s.render ++ "\n" ++ String.join (trees.map fun e => "    " ++ e.render ++ "\n")

/-- One line per statement, followed by the trees of its expressions. -/
def treeDump? (source : Source) : Except (Option CompileError) String := do
  let tokens ← source.significant?
  let statements ← source.statements? tokens
  let blocks ← statements.mapM source.block?
  return String.join blocks

/-- No partial operation is used outside its domain: each computation that uses some is, in the end,
one that uses none, and all its errors are reported. -/
structure CrashesNowhere (source : Source) (options : Options) : Prop where
  tokenDump : source.tokenDump? = source.tokenDump.mapError some
  treeDump : source.treeDump? = source.treeDump.mapError some
  compile : source.compile? options = (source.compile options).mapError some
  /-- Wherever a run has got to, every part of an expression that can be read can be typed. -/
  typing : ∀ statements e, Emission.run options.denyWarnings {} statements = .ok e →
    ∀ whole part : Expr, whole.IsRead → Expr.Within part whole →
      part.value? e.scopes = (part.value e.scopes).mapError some
  /-- Lines and columns are counted in 32 bits, up to the end of the text. -/
  position : ∀ tokens, source.tokens = .ok tokens → ∀ t ∈ tokens, t.position.Fits

/-- The tokens that take part in a program are found, or finding the tokens of its source crashes. -/
theorem significant?_below (source : Source) :
    Below source.significant? (source.significant.mapError some) := by
  have hsignificant : source.significant.mapError some =
      (source.tokens.mapError (.lexical source)).mapError some >>= fun all =>
        .ok (all.filter Token.isSignificant) := by
    unfold significant
    cases source.tokens <;> rfl
  rw [hsignificant]
  exact (tokens?_below source).bind fun _ => .refl _

/-- If every place of a text fits 32 bits, finding the tokens of its program crashes nowhere. -/
theorem significant?_eq (hfits : source.Fits) :
    source.significant? = source.significant.mapError some := by
  rw [significant?, significant, tokens?_eq hfits]
  cases source.tokens <;> rfl

/-- Where the tokens have been found, every place of the text fits 32 bits. -/
theorem fits_of_significant? (h : source.significant? = .ok tokens) : source.Fits := by
  cases hall : source.tokens? with
  | error => rw [significant?, hall] at h; cases h
  | ok all => exact fits_of_tokens? hall

/-- The tokens that are found without a crash are those of the program. -/
theorem significant_of_significant? (h : source.significant? = .ok tokens) :
    source.significant = .ok tokens :=
  (significant?_below source).eq_of_ok h

/-- Gathering statements in lists crashes nowhere, and gives the statements of the program with
their tokens in one list each. -/
theorem statements?_eq (source : Source) (tokens : List Token) :
    source.statements? tokens =
      ((source.statements tokens).map (List.map Statement.raw)).mapError some := by
  rw [statements?, statements, Statement.group?_eq]
  cases Statement.group tokens <;> rfl

/-- The tokens of every statement stand at places that fit 32 bits, if those of the text do. -/
theorem standsIn_fits (hfits : source.Fits) (htokens : source.significant = .ok tokens)
    (hstatements : source.statements tokens = .ok statements) :
    ∀ s ∈ statements, s.StandsIn Position.Fits := by
  have hall : Token.AllIn Position.Fits tokens :=
    allIn_of_behind htokens fun front back htext _ => hfits front back htext
  exact fun s hs => hall.of_subset (sublist_of_statements hstatements hs).subset

/-- A text that is not empty has a character. -/
theorem length_pos_of_ne_empty {text : String} (h : text ≠ "") : 0 < text.toList.length := by
  rw [String.length_toList, Nat.pos_iff_ne_zero]
  exact fun hempty => h (String.length_eq_zero_iff.1 hempty)

/-- Tiles that are not empty are no more than the characters they cover. -/
theorem length_le_tiled {tiles : List (Token × List Char)} (h : ∀ tile ∈ tiles, tile.1.lexeme ≠ "") :
    tiles.length ≤ (tiled tiles).length := by
  induction tiles with
  | nil => simp
  | cons tile tiles ih =>
    rw [List.forall_mem_cons] at h
    have hlexeme := length_pos_of_ne_empty h.1
    have hothers := ih h.2
    simp only [tiled, List.flatMap_cons, List.length_append, List.length_cons] at hothers ⊢
    omega

/-- A text has no more tokens than characters. -/
theorem length_of_tokens {all : List Token} (h : source.tokens = .ok all) :
    (all.filter Token.isSignificant).length ≤ source.text.length := by
  have hscan : scan (.behind []) source.text.toList = .ok all := h
  obtain ⟨gap, tiles, htiling, rfl⟩ := exists_tiling_of_scan hscan
  have hlexeme : ∀ tile ∈ tiles, tile.1.lexeme ≠ "" := by
    intro tile htile
    obtain ⟨front, back, heq⟩ := List.append_of_mem htile
    exact (htiling.tile front tile.1 tile.2 back heq).lexeme
  have htiles := length_le_tiled hlexeme
  have htext := congrArg List.length htiling.text
  have hsignificant := List.length_filter_le Token.isSignificant (tiles.map Prod.fst)
  rw [String.length_toList, List.length_append] at htext
  rw [List.length_map] at hsignificant
  rw [List.filter_append, List.filter_cons_of_neg (by simp [Token.isSignificant]), List.filter_nil,
    List.append_nil]
  omega

/-- A token stands at a place of its text, and so does the token for the end of the text, which stands
behind all of it. -/
theorem fits_of_mem_tokens (hfits : source.Fits) {all : List Token} (h : source.tokens = .ok all)
    {t : Token} (ht : t ∈ all) : t.position.Fits := by
  by_cases heof : t.kind = .eof
  · have hscan : scan (.behind []) source.text.toList = .ok all := h
    obtain ⟨gap, tiles, htiling, rfl⟩ := exists_tiling_of_scan hscan
    rcases List.mem_append.1 ht with htile | hend
    · obtain ⟨⟨t, behind⟩, hmem, rfl⟩ := List.mem_map.1 htile
      obtain ⟨front, back, rfl⟩ := List.append_of_mem hmem
      exact absurd heof (htiling.tile front t behind back rfl).kind
    · rw [List.mem_singleton.1 hend]
      exact hfits _ [] (List.append_nil _).symm
  · obtain ⟨front, rest, htext, hposition, -⟩ := exists_text_of_tokens h ht heof
    rw [hposition]
    rw [List.append_assoc] at htext
    exact hfits front _ htext

/-- The tokens of a text whose places fit 32 bits are listed without a crash. -/
theorem tokenDump?_eq (hfits : source.Fits) :
    source.tokenDump? = source.tokenDump.mapError some := by
  rw [tokenDump?, tokenDump, tokens?_eq hfits]
  cases source.tokens <;> rfl

/-- The block of a statement is listed from its tokens, each of whose places fits 32 bits. -/
theorem block?_raw (hs : s.StandsIn Position.Fits) :
    source.block? s.raw = (do
      let trees ← source.trees s
      return s.render ++ "\n" ++ String.join (trees.map fun e => "    " ++ e.render ++ "\n") :
        Except CompileError String).mapError some := by
  have htrees : s.runs.mapM Expr.parse? = (s.runs.mapM Expr.parse).mapError some :=
    mapM_mapError fun run hrun =>
      Expr.parse?_eq (hs.of_subset (Statement.subset_of_mem_runs run hrun))
  simp only [block?, Statement.raw, Statement.ofRaw?_tokens, demand_some_bind, Statement.runs?_eq,
    htrees, trees]
  cases s.runs.mapM Expr.parse <;> rfl

/-- What follows the tokens in a listing of trees is computed inside the domains of all operations,
if every place of the text fits 32 bits. -/
theorem blocks?_eq (hfits : source.Fits) (htokens : source.significant = .ok tokens) :
    (source.statements? tokens >>= fun statements => statements.mapM source.block? >>= fun blocks =>
      .ok (String.join blocks)) =
    (source.statements tokens >>= fun statements => (statements.mapM fun s => do
      let trees ← source.trees s
      return s.render ++ "\n" ++ String.join (trees.map fun e => "    " ++ e.render ++ "\n")) >>=
        fun blocks => .ok (String.join blocks)).mapError some := by
  rw [statements?_eq]
  cases hstatements : source.statements tokens with
  | error => rfl
  | ok statements =>
    have hstands := standsIn_fits hfits htokens hstatements
    simp only [Except.map, mapError_ok, ok_bind, List.mapM_map, Function.comp_def]
    rw [mapM_mapError fun s hs => block?_raw (hstands s hs), mapError_bind]
    rfl

/-- The trees of a text whose places fit 32 bits are listed without a crash. -/
theorem treeDump?_eq (hfits : source.Fits) :
    source.treeDump? = source.treeDump.mapError some := by
  rw [treeDump?, treeDump, significant?_eq hfits, mapError_bind]
  refine bind_congr_of_ok fun tokens htokens => ?_
  exact blocks?_eq hfits (mapError_eq_ok_iff.1 htokens)

/-- A program is emitted without a crash if its tokens stand at places that fit 32 bits, and a line
has room in as many blocks as there are statements. -/
theorem emission?_eq (hfits : source.Fits) (htokens : source.significant = .ok tokens)
    (hstatements : source.statements tokens = .ok statements)
    (hroom : options.indent * statements.length < 2 ^ 64) :
    source.emission? options (statements.map Statement.raw) =
      (source.emission options.denyWarnings statements).mapError some := by
  have hgroup := mapError_eq_ok_iff.1 hstatements
  have hrun : Emission.run? options.denyWarnings options.indent {} (statements.map Statement.raw) =
      (Emission.run options.denyWarnings {} statements).mapError some := by
    refine Emission.run?_eq (fun s hs => Statement.lead_of_declaration hgroup hs)
      (standsIn_fits hfits htokens hstatements) ?_
    rwa [show ({} : Emission).scopes.depth = 0 from rfl, Nat.zero_add]
  rw [emission?, emission, hrun]
  cases Emission.run options.denyWarnings {} statements with
  | error => rfl
  | ok e =>
    simp only [mapError_ok, ok_bind, Statement.endOf_raw]
    cases e.unfinished? <;> rfl

/-- Whatever the indent is, a program is emitted as it should be, or the room for an indent
overflows. -/
theorem emission?_below (hfits : source.Fits) (htokens : source.significant = .ok tokens)
    (hstatements : source.statements tokens = .ok statements) :
    Below (source.emission? options (statements.map Statement.raw))
      ((source.emission options.denyWarnings statements).mapError some) := by
  have hroom : ({ options with indent := 0 } : Options).indent * statements.length < 2 ^ 64 := by simp
  rw [← emission?_eq hfits htokens hstatements hroom]
  exact .bind ((Emission.run?_below {} _).mapError source.failure) fun _ => .refl _

/-- A text of fewer than 2 ^ 32 characters whose places fit 32 bits is compiled without a crash, if
its lines are indented by 64 spaces per block at most. There are no more statements than characters
and so no more blocks, which leaves room for every indent. -/
theorem compile?_eq (hfits : source.Fits) (hlength : source.text.length < 2 ^ 32)
    (hindent : options.indent ≤ 64) :
    source.compile? options = (source.compile options).mapError some := by
  rw [compile?, compile, significant?_eq hfits, mapError_bind]
  refine bind_congr_of_ok fun tokens hfound => ?_
  have htokens := mapError_eq_ok_iff.1 hfound
  obtain ⟨all, hscan, rfl⟩ := eq_of_significant htokens
  rw [statements?_eq]
  cases hstatements : source.statements (all.filter Token.isSignificant) with
  | error => rfl
  | ok statements =>
    have hgroup := mapError_eq_ok_iff.1 hstatements
    have hcount := (Statement.length_of_group hgroup).trans (length_of_tokens hscan)
    have hroom : options.indent * statements.length < 2 ^ 64 :=
      calc options.indent * statements.length
          ≤ 64 * 2 ^ 32 := Nat.mul_le_mul hindent (by omega)
        _ < 2 ^ 64 := by norm_num
    have hemission := emission?_eq hfits htokens hstatements hroom
    simp only [Except.map, mapError_ok, ok_bind, hemission, List.length_map]
    cases source.emission options.denyWarnings statements <;> rfl

/-- A compilation comes to what it should, or it crashes on a text that is too long to be counted or
on an indent that is too wide. -/
theorem compile?_below (source : Source) (options : Options) :
    Below (source.compile? options) ((source.compile options).mapError some) := by
  rw [compile, mapError_bind]
  refine .bind_of_ok (significant?_below source) fun tokens hfound => ?_
  have hfits := fits_of_significant? hfound
  have htokens := significant_of_significant? hfound
  rw [statements?_eq]
  cases hstatements : source.statements tokens with
  | error => exact .refl _
  | ok statements =>
    simp only [Except.map, mapError_ok, ok_bind, mapError_bind, List.length_map]
    exact .bind (emission?_below hfits htokens hstatements) fun _ => .refl _

/-- Trees are listed as they should be, or listing them crashes on a text that is too long to be
counted. -/
theorem treeDump?_below (source : Source) :
    Below source.treeDump? (source.treeDump.mapError some) := by
  rw [treeDump, mapError_bind]
  refine .bind_of_ok (significant?_below source) fun tokens hfound => .inr ?_
  exact blocks?_eq (fits_of_significant? hfound) (significant_of_significant? hfound)

/-- No input crashes the compiler: a text of fewer than 2 ^ 32 characters is compiled, and its
tokens and trees are listed, inside the domains of all partial operations. Texts with just one
character less than that are left out if they are a single line or hold nothing but line feeds:
their end has a column or a line that does not fit 32 bits. -/
theorem crashes_nowhere (source : Source) (options : Options)
    (hlength : source.text.length < 2 ^ 32)
    (hmixed : source.text.length = 2 ^ 32 - 1 →
      '\n' ∈ source.text.toList ∧ ∃ c ∈ source.text.toList, c ≠ '\n')
    (hindent : options.indent ≤ 64) :
    source.CrashesNowhere options :=
  have hfits := fits_of_length hlength hmixed
  { tokenDump := tokenDump?_eq hfits
    treeDump := treeDump?_eq hfits
    compile := compile?_eq hfits hlength hindent
    typing := fun _ _ hrun _ _ hread hwithin =>
      Expr.value?_eq (Emission.hasSmallValues_of_run hrun) (hread.hasSmallNumbers.within hwithin)
    position := fun _ htokens _ ht => fits_of_mem_tokens hfits htokens ht }

/-- Values that are unpacked and swapped, a conversion with a sign, a loop with a step, and a character
of several bytes. -/
private def everyStage : Source :=
  ⟨"stages", "main\x7bvar a,b=divmod(7,2);a,b=b,a;const N=-i32(2.5);for var i=0;N;-1\x7bprint(\"é\")\x7d\x7d"⟩

/-- The program is compiled, so none of its stages is skipped because an earlier one refuses it. -/
theorem everyStage_crashes_nowhere :
    everyStage.text.length < 2 ^ 32 ∧
      (everyStage.text.length = 2 ^ 32 - 1 →
        '\n' ∈ everyStage.text.toList ∧ ∃ c ∈ everyStage.text.toList, c ≠ '\n') ∧
      ({} : Options).indent ≤ 64 ∧ everyStage.CrashesNowhere {} ∧
      ∃ artifact, everyStage.compile? {} = .ok artifact := by
  have hshort : everyStage.text.length + 1 < 2 ^ 32 := by decide +kernel
  have hlength : everyStage.text.length < 2 ^ 32 := by omega
  have hmixed : everyStage.text.length = 2 ^ 32 - 1 →
      '\n' ∈ everyStage.text.toList ∧ ∃ c ∈ everyStage.text.toList, c ≠ '\n' := by omega
  have hindent : ({} : Options).indent ≤ 64 := by decide
  have hfree := crashes_nowhere everyStage {} hlength hmixed hindent
  have hok : (everyStage.compile {}).isOk = true := by decide +kernel
  obtain ⟨artifact, hcompile⟩ := exists_eq_ok_of_isOk hok
  refine ⟨hlength, hmixed, hindent, hfree, artifact, ?_⟩
  rw [hfree.compile, hcompile]
  rfl

/-- A line of blanks holds no token but the one for its end, which stands behind the last of them. If
that column does not fit 32 bits, counting up to it crashes. -/
theorem tokens?_of_wideLine {width : Nat} (hwidth : 2 ^ 32 ≤ width + 1)
    (htext : source.text.toList = List.replicate width ' ') : source.tokens? = .error none := by
  have hblank : ∀ c ∈ source.text.toList, isBlank c = true := by
    intro c hc
    rw [htext] at hc
    rw [List.eq_of_mem_replicate hc]
    rfl
  have htokens : source.tokens = .ok _ := (Scans.allBlank hblank).scan_eq
  rcases tokens?_below source with hcrash | hfound
  · exact hcrash
  · rw [htokens] at hfound
    have hend := fits_of_tokens? hfound source.text.toList [] (List.append_nil _).symm
    have hcolumn : (Position.behind source.text.toList).column = 1 + width := by
      rw [htext, Position.behind, List.reverse_replicate, List.takeWhile_replicate]
      simp
    have hlt := hend.2
    omega

/-- A single line of as many blanks as a text of fewer than 2 ^ 32 characters can have. -/
private def wideLine : Source :=
  ⟨"wide", String.ofList (List.replicate (2 ^ 32 - 1) ' ')⟩

/-- The end of such a line stands in column 2 ^ 32, which is past 32 bits. -/
theorem wideLine_crashes :
    wideLine.text.length < 2 ^ 32 ∧ ({} : Options).indent ≤ 64 ∧
      wideLine.tokenDump? = .error none ∧ wideLine.treeDump? = .error none ∧
      wideLine.compile? {} = .error none := by
  have htext : wideLine.text.toList = List.replicate (2 ^ 32 - 1) ' ' := String.toList_ofList
  have hlength : wideLine.text.length = 2 ^ 32 - 1 := by
    rw [← String.length_toList, htext, List.length_replicate]
  have htokens : wideLine.tokens? = .error none := tokens?_of_wideLine (by norm_num) htext
  have hsignificant : wideLine.significant? = .error none := by
    rw [significant?, htokens]
    rfl
  refine ⟨by omega, by decide, ?_, ?_, ?_⟩
  · rw [tokenDump?, htokens]
    rfl
  · rw [treeDump?, hsignificant]
    rfl
  · rw [compile?, hsignificant]
    rfl

end Source

end Sprout
