import AflPlusPlus.CStrings
import AflPlusPlus.DeterministicStages
import AflPlusPlus.DictionaryFiles
import AflPlusPlus.Limits
import AflPlusPlus.Qsorts

/-!
# The tables of dictionary tokens

The user's tokens come from dictionary files, from directories and from the target. Further
tokens are found while fuzzing: `maybe_add_auto` counts how often it sees each of them, and keeps
the table of them in two orders, by use and in front by size.
-/

namespace AflPlusPlus.AutoExtras
open ByteWords ByteBuffers CStrings DeterministicStages DictionaryFiles Qsorts

def maxAutoExtras : ℕ := useAutoExtras * 8

structure AutoExtraData where
  data : List Byte
  hitCnt : BitVec 32
deriving DecidableEq

/-- The tables of `afl_state_t`, with the tokens as the strings of their lengths. -/
structure State where
  extras : List (List Byte)
  aExtras : List AutoExtraData
  autoChanged : Bool
deriving DecidableEq

def init : State := ⟨[], [], false⟩

/-! ## The user's tokens -/

def compareExtrasLen (e1 e2 : List Byte) : ℤ :=
  (BitVec.ofNat 32 e1.length - BitVec.ofNat 32 e2.length).toInt

def State.sortExtras (q : Qsort) (s : State) : State :=
  { s with extras := q.sort compareExtrasLen s.extras }

def State.extrasCheckAndSort (q : Qsort) (s : State) : State :=
  if s.extras.length = 0 then s else s.sortExtras q

/-- `load_extras` of a dictionary file. -/
def State.loadExtrasOfFile (q : Qsort) (dictLevel : BitVec 32) (file : List Byte) (s : State) :
    State :=
  let loaded := loadExtrasFile dictLevel file ⟨s.extras, maxDictFile, 0, []⟩
  { s with extras := loaded.extras }.extrasCheckAndSort q

/-- `load_extras` of a directory: each file of it is a token, unless it is empty or too big. -/
def State.loadExtrasOfDir (q : Qsort) (files : List (List Byte)) (s : State) : State :=
  let usable := files.filter (fun file => file.length ≠ 0 ∧ ¬ file.length > maxDictFile)
  { s with extras := s.extras ++ usable }.extrasCheckAndSort q

/-- Whether the walk of `add_extra` finds the token among those of its length. -/
def isPresent (mem : List Byte) (found : Bool) : List (List Byte) → Bool
  | [] => false
  | e :: extras =>
    if e.length = mem.length then (if e = mem then true else isPresent mem true extras)
    else if found then false
    else isPresent mem found extras

def State.addExtraNocheck (mem : List Byte) (s : State) : State :=
  { s with extras := s.extras ++ [mem] }

def State.addExtra (q : Qsort) (mem : List Byte) (s : State) : State :=
  if isPresent mem false s.extras then s
  else if mem.length > maxDictFile then s
  else (s.addExtraNocheck mem).sortExtras q

/-- The bytes whose index leaves the remainder `r`. -/
def everyNth (n r : ℕ) (data : List Byte) : List Byte :=
  ((List.range data.length).filter (· % n = r)).map (byteAt data)

def zeros (data : List Byte) : ℕ := data.count 0

/-- What `deunicode_extras` makes of one token. -/
def deunicode (data : List Byte) : List (List Byte) :=
  let len := data.length
  if len < 6 ∨ len > 64 ∨ len % 2 ≠ 0 then []
  else
    let half := len / 2
    let quarter := half / 2
    let z1 := zeros (everyNth 2 0 data)
    let z2 := zeros (everyNth 2 1 data)
    let z3 := zeros (everyNth 4 2 data)
    let z4 := zeros (everyNth 4 3 data)
    if (z1 < half ∧ z2 < half) ∨ z1 + z2 = len then []
    else
      -- also maybe 32 bit unicode?
      let wide :=
        if len % 4 = 0 ∧ len ≥ 12 ∧ (z3 = quarter ∨ z4 = quarter) ∧ z1 + z2 = quarter * 3 then
          [if z4 < quarter then everyNth 4 3 data
            else if z3 < quarter then everyNth 4 2 data
            else if z2 < half then everyNth 4 1 data
            else everyNth 4 0 data]
        else []
      wide ++ [if z1 < half then everyNth 2 0 data else everyNth 2 1 data]

def State.deunicodeExtras (q : Qsort) (s : State) : State :=
  if s.extras.length = 0 then s
  else { s with extras := s.extras ++ s.extras.flatMap deunicode }.sortExtras q

/-- The inner walk of `dedup_extras`: the token is taken away from those of its length behind
it. -/
def dedupAgainst (e : List Byte) : List (List Byte) → List (List Byte)
  | [] => []
  | f :: extras =>
    if e.length ≠ f.length then f :: extras
    else if e = f then dedupAgainst e extras
    else f :: dedupAgainst e extras

theorem dedupAgainst_sublist (e : List Byte) (extras : List (List Byte)) :
    (dedupAgainst e extras).Sublist extras := by
  induction extras with
  | nil => exact List.Sublist.refl _
  | cons f extras ih =>
    rw [dedupAgainst]
    split_ifs
    · exact List.Sublist.refl _
    · exact ih.cons f
    · exact ih.cons_cons f

def dedup : List (List Byte) → List (List Byte)
  | [] => []
  | e :: extras => e :: dedup (dedupAgainst e extras)
termination_by extras => extras.length
decreasing_by exact Nat.lt_succ_of_le (dedupAgainst_sublist e extras).length_le

def State.dedupExtras (s : State) : State :=
  { s with extras := dedup s.extras }

/-! ## The tokens found while fuzzing -/

def compareAutoExtrasLen (e1 e2 : AutoExtraData) : ℤ :=
  (BitVec.ofNat 32 e1.data.length - BitVec.ofNat 32 e2.data.length).toInt

/-- Descending order. -/
def compareAutoExtrasUseD (e1 e2 : AutoExtraData) : ℤ := (e2.hitCnt - e1.hitCnt).toInt

/-- Whether two strings of one length differ. -/
def memcmpNocase : List Byte → List Byte → Bool
  | a :: m1, b :: m2 => if tolower a ≠ tolower b then true else memcmpNocase m1 m2
  | _, _ => false

/-- Where the first loop stops: at the first byte that is not the one at index 0. -/
def runEnd (mem : List Byte) : ℕ :=
  1 + (mem.tail.takeWhile (fun b => mem.head? = some b)).length

def builtin16 (x : Word 2) : Bool :=
  interesting16.any fun v => (x.toNat : ℤ) = v ∨ x = swap16 (BitVec.ofInt 16 v)

def builtin32 (x : Word 4) : Bool :=
  interesting32.any fun v => x = BitVec.ofInt 32 v ∨ x = swap32 (BitVec.ofInt 32 v)

def isBuiltin (mem : List Byte) : Bool :=
  (mem.length = 2 && builtin16 (loadAt 2 mem 0)) || (mem.length = 4 && builtin32 (loadAt 4 mem 0))

/-- The extras are sorted by size: those of the size of `mem` follow the smaller ones. -/
def matchesExtra (extras : List (List Byte)) (mem : List Byte) : Bool :=
  let candidates := extras.dropWhile (fun e => ¬ e.length ≥ mem.length)
  (candidates.takeWhile (fun e => e.length = mem.length)).any (fun e => !memcmpNocase e mem)

def AutoExtraData.isToken (mem : List Byte) (e : AutoExtraData) : Bool :=
  e.data.length = mem.length && !memcmpNocase e.data mem

/-- `rand_below`, with the number that its loop accepts. -/
def randBelow (rnd limit : ℕ) : ℕ := if limit ≤ 1 then 0 else rnd % limit

/-- Count a token that is there, or enter a new one. -/
def enter (rnd : ℕ) (mem : List Byte) (aExtras : List AutoExtraData) : List AutoExtraData :=
  match aExtras.findIdx? (AutoExtraData.isToken mem) with
  | some i => aExtras.modify i (fun e => { e with hitCnt := e.hitCnt + 1 })
  | none =>
    if aExtras.length < maxAutoExtras then aExtras ++ [⟨mem, 0⟩]
    else
      let i := maxAutoExtras / 2 + randBelow rnd ((maxAutoExtras + 1) / 2)
      aExtras.set i ⟨mem, 0⟩

/-- Sort all by use, then the top ones by size. -/
def sortAutoExtras (q : Qsort) (aExtras : List AutoExtraData) : List AutoExtraData :=
  let byUse := q.sort compareAutoExtrasUseD aExtras
  let top := min useAutoExtras byUse.length
  q.sort compareAutoExtrasLen (byUse.take top) ++ byUse.drop top

def State.maybeAddAuto (q : Qsort) (rnd : ℕ) (mem : List Byte) (s : State) : State :=
  if maxAutoExtras = 0 ∨ useAutoExtras = 0 then s
  else if runEnd mem = mem.length ∨ mem.length > maxAutoExtra then s
  else if isBuiltin mem then s
  else if matchesExtra s.extras mem then s
  else { s with
    autoChanged := true, aExtras := sortAutoExtras q (enter rnd mem s.aExtras) }

/-! ## Runs -/

inductive Action
  | loadFile (dictLevel : BitVec 32) (file : List Byte)
  | loadDir (files : List (List Byte))
  | addExtra (mem : List Byte)
  | deunicode
  | dedup
  | maybeAddAuto (rnd : ℕ) (mem : List Byte)
deriving DecidableEq

def State.step (q : Qsort) (s : State) : Action → State
  | .loadFile dictLevel file => s.loadExtrasOfFile q dictLevel file
  | .loadDir files => s.loadExtrasOfDir q files
  | .addExtra mem => s.addExtra q mem
  | .deunicode => s.deunicodeExtras q
  | .dedup => s.dedupExtras
  | .maybeAddAuto rnd mem => s.maybeAddAuto q rnd mem

def State.run (q : Qsort) (s : State) (actions : List Action) : State :=
  actions.foldl (State.step q) s

end AflPlusPlus.AutoExtras
