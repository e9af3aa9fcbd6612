import GradedScript.Program
import GradedScript.Style.Usage

/-!
# Style reports

A program's style is graded in five sections of twenty points each: `if` statements without an
`else`, magic numbers, variables that are never read, parameters that are never read, and comment
density. `Report.render` is the written report.
-/

namespace GradedScript

/-! ### Comment density -/

/-- What is said about the density of comments. -/
inductive Verdict where
  | tooFew
  | tooMany
  | good
deriving DecidableEq, Inhabited

/-- The wording of a verdict. -/
def Verdict.text : Verdict → String
  | .tooFew => "Too few comments"
  | .tooMany => "Too many comments"
  | .good => "Good"

/-- The lines of comment among all lines. -/
structure Density where
  commentLines : Nat
  codeLines : Nat
  totalLines : Nat
  ratio : Float
  verdict : Verdict
deriving Inhabited

/-- Programs shorter than this need no comments. -/
def longProgram : Nat := 20

/-- Judges the density of comments; a program has at least one line. -/
def Density.ofComments (c : Comments) : Density :=
  let total := max c.totalLines 1
  let ratio := c.commentLines.toFloat / total.toFloat
  let verdict :=
    if longProgram ≤ total ∧ ratio < 0.05 then .tooFew
    else if ratio > 0.35 then .tooMany
    else .good
  { commentLines := c.commentLines, codeLines := c.codeLines, totalLines := c.totalLines,
    ratio, verdict }

/-! ### Reports -/

/-- A number that should have a name, as text, and its line. -/
structure MagicNumber where
  text : String
  line : Nat
deriving DecidableEq, Inhabited

/-- A parameter that its function does not read. -/
structure UnusedParam where
  function : String
  param : String
deriving DecidableEq, Inhabited

/-- What a program is graded on. -/
structure Report where
  ifCount : Nat
  ifWithoutElse : Nat
  magicNumbers : List MagicNumber
  unusedLocals : List String
  unusedParams : List UnusedParam
  comments : Density
deriving Inhabited

/-- Zero and one need no name. -/
def isMagic (x : Float) : Bool :=
  !(x == 0 || x == 1)

namespace Report

/-- The report on a program with the given facts. -/
def ofUsage (comments : Comments) (usage : Usage) : Report where
  ifCount := usage.ifCount
  ifWithoutElse := usage.ifWithoutElse
  magicNumbers := (usage.numbers.toList.filter fun n => isMagic n.value).map fun n =>
    ⟨numberText n.value, n.line⟩
  unusedLocals := sortNames (usage.writes.filter fun name => !usage.reads.contains name)
  unusedParams := usage.functions.toList.flatMap fun f => f.unusedParams.map fun p => ⟨f.name, p⟩
  comments := .ofComments comments

/-- The report on a source text, or its static faults. -/
def ofSource (source : String) : Except (List Diagnostic) Report :=
  let program := Program.ofSource source
  if program.errors.isEmpty then .ok (ofUsage program.comments (.ofProgram program.statements))
  else .error program.errors

/-! ### Scores -/

/-- The points of a section. -/
def sectionPoints : Float := 20

/-- A number, or zero if it is negative. -/
def atLeastZero (x : Float) : Float :=
  if x < 0 then 0 else x

/-- A section that loses a point for each finding. -/
def penaltyScore (count : Nat) : Float :=
  atLeastZero (sectionPoints - count.toFloat)

/-- Points in proportion to the `if` statements that have an `else`. -/
def ifScore (r : Report) : Float :=
  if r.ifCount = 0 then sectionPoints
  else sectionPoints * (r.ifCount - r.ifWithoutElse).toFloat / r.ifCount.toFloat

/-- A point is lost for each magic number. -/
def magicScore (r : Report) : Float :=
  penaltyScore r.magicNumbers.length

/-- A point is lost for each variable that is never read. -/
def localsScore (r : Report) : Float :=
  penaltyScore r.unusedLocals.length

/-- A point is lost for each parameter that is never read. -/
def paramsScore (r : Report) : Float :=
  penaltyScore r.unusedParams.length

/-- Best with as many lines of comment as others; a point is lost for each percent away. -/
def commentScore (r : Report) : Float :=
  atLeastZero (sectionPoints - (50 - r.comments.ratio * 100).abs)

/-- The sum of all sections. -/
def total (r : Report) : Float :=
  r.ifScore + r.magicScore + r.localsScore + r.paramsScore + r.commentScore

/-! ### Text -/

/-- A score with at most two places and no zeros at the end. -/
def scoreText (score : Float) : String :=
  let kept := (fixedText 2 score).toList.reverse.dropWhile (· == '0')
  String.ofList (kept.dropWhile (· == '.')).reverse

/-- The grade in one line. -/
def summary (r : Report) : String :=
  "Total Grade: " ++ scoreText r.total ++ "/100"

/-- The first line of a section. -/
def sectionHeader (score : Float) : String :=
  "// " ++ scoreText score ++ "/20"

/-- The lines of the written report. -/
def lines (r : Report) : List String :=
  ["# Evala static grading", "", sectionHeader r.ifScore,
    "If without else: " ++ toString r.ifWithoutElse, "", sectionHeader r.magicScore,
    "Magic numbers: " ++ toString r.magicNumbers.length] ++
  (r.magicNumbers.map fun m => "  line " ++ toString m.line ++ ": " ++ m.text) ++
  ["", sectionHeader r.localsScore, "Unused locals: " ++ toString r.unusedLocals.length] ++
  (r.unusedLocals.map fun name => "  " ++ name) ++
  ["", sectionHeader r.paramsScore, "Unused parameters: " ++ toString r.unusedParams.length] ++
  (r.unusedParams.map fun u => "  function " ++ u.function ++ ": " ++ u.param) ++
  ["", sectionHeader r.commentScore, "Comment density:",
    "  total lines: " ++ toString r.comments.totalLines,
    "  code lines: " ++ toString r.comments.codeLines,
    "  comment lines: " ++ toString r.comments.commentLines,
    "  ratio: " ++ fixedText 1 (r.comments.ratio * 100) ++ "%",
    "  verdict: " ++ r.comments.verdict.text, "", "# " ++ r.summary]

/-- The written report. -/
def render (r : Report) : String :=
  String.join (r.lines.map (· ++ "\n"))

end Report

end GradedScript
