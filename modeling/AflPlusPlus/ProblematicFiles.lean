import AflPlusPlus.Worklists
import Mathlib

/-!
# Functions with issues

`problematic-files.py` lists the functions of a file that have an issue, and the functions whose
code contains the name of a function in the list. The code of a function is looked up by its name,
where the definition that comes last has replaced the others.
-/

namespace AflPlusPlus.ProblematicFiles
open Worklists

abbrev Text := List Char

/-- A definition, with the lines that `ctags` reports. Lines are counted from 1. -/
structure Function where
  name : Text
  startLine : ℕ
  endLine : ℕ
  start_pos : 1 ≤ startLine
deriving DecidableEq

/-- `sed -n start,end p`: when the last line is not behind the first, only the first is printed. The
lines come with their line ends. -/
def sed (lines : List Text) (start last : ℕ) : Text :=
  ((lines.drop (start - 1)).take (max 1 (last + 1 - start))).flatten

variable (lines : List Text)

def functionCode (f : Function) : Text := sed lines f.startLine f.endLine

/-- The map is filled for one file after the other, so that only the name matters in its keys. -/
def functionCodeMap (functions : List Function) : Text → Option Text :=
  functions.foldl (fun map f => Function.update map f.name (some (functionCode lines f)))
    fun _ => none

/-- `name in code`. -/
def contains (name code : Text) : Bool := decide (name <:+: code)

def mainName : Text := ['m', 'a', 'i', 'n']

/-- An issue is a file with a line. -/
def isProblematic (file : Text) (issues : List (Text × ℕ)) (f : Function) : Bool :=
  issues.any fun issue =>
    (issue.1 == file && (decide (f.startLine ≤ issue.2) && decide (issue.2 ≤ f.endLine))) ||
      f.name == mainName

/-- The current name is in the code that the map has for the function. -/
def calls (functions : List Function) (currentName : Text) (f : Function) : Bool :=
  match functionCodeMap lines functions f.name with
  | some code => contains currentName code
  | none => false

/-- The names that are printed for a file, in order. -/
def printedFunctions (fuel : ℕ) (file : Text) (issues : List (Text × ℕ))
    (functions : List Function) : Option (List Text) :=
  if issues = [] then some []
  else
    let s := sweep Function.name (isProblematic file issues) functions ⟨[], []⟩
    loop Function.name (calls lines functions) functions fuel s

/-! ## What is printed -/

section Reached
variable (file : Text) (issues : List (Text × ℕ)) (functions : List Function)

/-- `main`, and the functions with an issue in their lines. -/
def Seed (f : Function) : Prop :=
  f.name = mainName ∨ ∃ issue ∈ issues, issue.1 = file ∧ f.startLine ≤ issue.2 ∧ issue.2 ≤ f.endLine

/-- The least set with the seeds that is closed under: some definition of the function contains a
name of the set. -/
def Required : Text → Prop :=
  Reaches Function.name (Seed file issues) (fun n f => n <:+: functionCode lines f) functions

/-- The last definition of each name. -/
def LastContains (n : Text) (f : Function) : Prop :=
  ∃ before g behind, functions = before ++ g :: behind ∧ g.name = f.name ∧
    (∀ h ∈ behind, h.name ≠ f.name) ∧ n <:+: functionCode lines g

/-- The least set with the seeds that is closed under: the last definition of the function contains
a name of the set. -/
def Linked : Text → Prop :=
  Reaches Function.name (Seed file issues) (LastContains lines functions) functions

end Reached

/-- The map has the code of the last definition of a name. -/
theorem functionCodeMap_eq_some_iff {functions : List Function} {n code : Text} :
    functionCodeMap lines functions n = some code ↔
      ∃ before g behind, functions = before ++ g :: behind ∧ g.name = n ∧
        (∀ h ∈ behind, h.name ≠ n) ∧ code = functionCode lines g := by
  induction functions using List.reverseRecOn with
  | nil =>
    refine iff_of_false (Option.some_ne_none code).symm ?_
    rintro ⟨before, g, behind, hnil, -⟩
    exact absurd hnil.symm (List.append_ne_nil_of_right_ne_nil _ (List.cons_ne_nil _ _))
  | append_singleton functions f ih =>
    have hstep : functionCodeMap lines (functions ++ [f]) = Function.update
        (functionCodeMap lines functions) f.name (some (functionCode lines f)) := by
      rw [functionCodeMap, List.foldl_append]
      rfl
    rw [hstep]
    by_cases hname : n = f.name
    · rw [hname, Function.update_self, Option.some_inj]
      constructor
      · rintro rfl
        exact ⟨functions, f, [], rfl, rfl, fun h hh => absurd hh List.not_mem_nil, rfl⟩
      · rintro ⟨before, g, behind, heq, -, hbehind, rfl⟩
        rcases List.eq_nil_or_concat behind with rfl | ⟨behind, h, rfl⟩
        · rw [List.singleton_inj.mp (List.append_inj' heq rfl).2]
        · rw [List.concat_eq_append, ← List.cons_append, ← List.append_assoc] at heq
          obtain rfl := List.singleton_inj.mp (List.append_inj' heq rfl).2
          exact absurd rfl (hbehind f (by simp))
    · rw [Function.update_of_ne hname, ih]
      constructor
      · rintro ⟨before, g, behind, rfl, hg, hbehind, hcode⟩
        refine ⟨before, g, behind ++ [f], by simp, hg, ?_, hcode⟩
        intro h hh
        rw [List.mem_append, List.mem_singleton] at hh
        rcases hh with hh | rfl
        · exact hbehind h hh
        · exact Ne.symm hname
      · rintro ⟨before, g, behind, heq, hg, hbehind, hcode⟩
        rcases List.eq_nil_or_concat behind with rfl | ⟨behind, h, rfl⟩
        · obtain rfl := List.singleton_inj.mp (List.append_inj' heq rfl).2
          exact absurd hg.symm hname
        · rw [List.concat_eq_append, ← List.cons_append, ← List.append_assoc] at heq
          obtain ⟨hfunctions, -⟩ := List.append_inj' heq rfl
          exact ⟨before, g, behind, hfunctions, hg, fun h hh => hbehind h (by simp [hh]), hcode⟩

variable {lines} {file : Text} {issues : List (Text × ℕ)} {functions : List Function} {n : Text}

theorem calls_iff {f : Function} :
    calls lines functions n f = true ↔ LastContains lines functions n f := by
  rw [calls]
  constructor
  · intro h
    split at h
    · next code hcode =>
      obtain ⟨before, g, behind, heq, hg, hbehind, rfl⟩ :=
        (functionCodeMap_eq_some_iff lines).mp hcode
      exact ⟨before, g, behind, heq, hg, hbehind, of_decide_eq_true h⟩
    · exact absurd h Bool.false_ne_true
  · rintro ⟨before, g, behind, heq, hg, hbehind, hin⟩
    have hcode := (functionCodeMap_eq_some_iff lines).mpr ⟨before, g, behind, heq, hg, hbehind, rfl⟩
    rw [hcode]
    exact decide_eq_true hin

theorem isProblematic_iff (hissues : issues ≠ []) {f : Function} :
    isProblematic file issues f = true ↔ Seed file issues f := by
  rw [isProblematic, List.any_eq_true, Seed]
  constructor
  · rintro ⟨issue, hissue, hcond⟩
    simp only [Bool.or_eq_true, Bool.and_eq_true, beq_iff_eq, decide_eq_true_iff] at hcond
    rcases hcond with hline | hmain
    · exact Or.inr ⟨issue, hissue, hline⟩
    · exact Or.inl hmain
  · rintro (hmain | ⟨issue, hissue, hline⟩)
    · obtain ⟨issue, hissue⟩ := List.exists_mem_of_ne_nil issues hissues
      exact ⟨issue, hissue, by simp [hmain]⟩
    · exact ⟨issue, hissue, by simp [hline]⟩

/-- The loop ends, prints each name once, and prints the names linked by the last definitions. -/
theorem printedFunctions_linked (lines : List Text) (file : Text) (functions : List Function)
    (hissues : issues ≠ []) :
    ∃ printed, (∀ fuel, functions.length < fuel →
        printedFunctions lines fuel file issues functions = some printed) ∧ printed.Nodup ∧
      ∀ n, n ∈ printed ↔ Linked lines file issues functions n := by
  obtain ⟨printed, hloop, hnodup, hmem⟩ := loop_spec Function.name (isProblematic file issues)
    (calls lines functions) functions
  refine ⟨printed, fun fuel hfuel => ?_, hnodup, fun n => ?_⟩
  · rw [printedFunctions, if_neg hissues]
    exact hloop fuel hfuel
  · rw [hmem]
    constructor
    · intro h
      exact h.mono (fun f _ hf => (isProblematic_iff hissues).mp hf) fun n f _ hf => calls_iff.mp hf
    · intro h
      exact h.mono (fun f _ hf => (isProblematic_iff hissues).mpr hf)
        fun n f _ hf => calls_iff.mpr hf

theorem Linked.required (h : Linked lines file issues functions n) :
    Required lines file issues functions n := by
  refine h.least (fun f hf hseed => Reaches.seed hf hseed) fun m f hm hf hlast => ?_
  obtain ⟨before, g, behind, heq, hg, -, hin⟩ := hlast
  rw [← hg]
  exact Reaches.step hm (by rw [heq]; simp) hin

/-- What is printed is the least set exactly when the definitions that were replaced add nothing:
a function is linked already when one of its definitions contains a linked name. -/
theorem printedFunctions_iff (lines : List Text) (file : Text) (issues : List (Text × ℕ))
    (functions : List Function) (hissues : issues ≠ []) :
    ∃ printed, (∀ fuel, functions.length < fuel →
        printedFunctions lines fuel file issues functions = some printed) ∧ printed.Nodup ∧
      ((∀ n, n ∈ printed ↔ Required lines file issues functions n) ↔
        ∀ f ∈ functions, ∀ n, Linked lines file issues functions n →
          n <:+: functionCode lines f → Linked lines file issues functions f.name) := by
  obtain ⟨printed, hruns, hnodup, hmem⟩ := printedFunctions_linked lines file functions hissues
  refine ⟨printed, hruns, hnodup, ?_⟩
  simp only [hmem]
  constructor
  · intro heq f hf n hn hin
    rw [heq] at hn ⊢
    exact Reaches.step hn hf hin
  · intro hclosed n
    refine ⟨Linked.required, fun h => ?_⟩
    exact h.least (fun f hf hseed => Reaches.seed hf hseed)
      fun m f hm hf hin => hclosed f hf m hm hin

/-! ## Two definitions of one name -/

def overloadLines : List Text :=
  ["f(int){g();}\n".toList, "f(char){}\n".toList, "g(){*(int*)0=1;}\n".toList]

def overloads : List Function :=
  [⟨['f'], 1, 1, le_rfl⟩, ⟨['f'], 2, 2, by decide⟩, ⟨['g'], 3, 3, by decide⟩]

theorem printedFunctions_iff_overloads : ∃ printed, (∀ fuel, 3 < fuel →
    printedFunctions overloadLines fuel ['a'] [(['a'], 3)] overloads = some printed) ∧
      printed.Nodup := by
  obtain ⟨printed, hruns, hnodup, -⟩ :=
    printedFunctions_iff overloadLines ['a'] [(['a'], 3)] overloads (List.cons_ne_nil _ _)
  exact ⟨printed, hruns, hnodup⟩

/-- The issue is in `g`, which the first definition of `f` calls; the second one replaces it. -/
theorem overloads_missed :
    printedFunctions overloadLines 4 ['a'] [(['a'], 3)] overloads = some [['g']] ∧
      Required overloadLines ['a'] [(['a'], 3)] overloads ['f'] := by
  constructor
  · decide +kernel
  · have hseed : Seed ['a'] [(['a'], 3)] (⟨['g'], 3, 3, by decide⟩ : Function) :=
      Or.inr ⟨(['a'], 3), List.mem_singleton_self _, rfl, le_rfl, le_rfl⟩
    have hsecond : (⟨['g'], 3, 3, by decide⟩ : Function) ∈ overloads := by decide
    have hfirst : (⟨['f'], 1, 1, le_rfl⟩ : Function) ∈ overloads := by decide
    have hin : ['g'] <:+: functionCode overloadLines ⟨['f'], 1, 1, le_rfl⟩ := by decide +kernel
    have hg : Required overloadLines ['a'] [(['a'], 3)] overloads
        (Function.name ⟨['g'], 3, 3, by decide⟩) := Reaches.seed hsecond hseed
    have hf : Required overloadLines ['a'] [(['a'], 3)] overloads
        (Function.name ⟨['f'], 1, 1, le_rfl⟩) := Reaches.step hg hfirst hin
    exact hf

end AflPlusPlus.ProblematicFiles
