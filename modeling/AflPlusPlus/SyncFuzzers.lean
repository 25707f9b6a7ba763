import AflPlusPlus.Limits
import AflPlusPlus.QueueNames

/-!
# Importing the queue of another fuzzer

A pass of `sync_fuzzers` lists the queue of a peer and continues behind the test cases it has
already seen, whose number it keeps in `.synced`. The place to continue is found by
comparing the first nine characters of the names with `id:%06u` of that number. The peer
only adds files; what it adds during a pass is not in the listing of this pass.
-/

namespace AflPlusPlus.SyncFuzzers
open QueueNames

/-- A file of the peer's queue: what follows the id in its name, and its size. -/
structure PeerFile where
  description : List Char
  size : ℕ

/-- What a fuzzer knows of itself. -/
structure Instance where
  syncId : List Char
  isSecondaryNode : Bool

/-- The peer's queue, whose file `i` has the id `i`, and what the fuzzer keeps about it: the
counter in `.synced`, the `.max` of the startup, and the names of the test cases it has
executed. Times are in seconds. -/
structure SyncState where
  files : List PeerFile := []
  clock : ℕ := 1
  cmdlineMtime : ℕ := 0
  isMainNode : Bool := false
  synced : Option ℕ := none
  maxId : Option ℕ := none
  executed : List FileName := []

def isKnownCase (inst : Instance) (name : FileName) : Bool :=
  let comingFromMe := inst.syncId ++ [',']
  if name.length < 15 + 4 + 6 + comingFromMe.length then false
  else if (name.drop 10).take 4 ≠ ['s', 'y', 'n', 'c'] then false
  else (name.drop 15).take comingFromMe.length = comingFromMe

/-- The entries of the queue directory that are no test cases. -/
def dotEntries : List (FileName × ℕ) :=
  [(['.'], 4096), (['.', '.'], 4096), (['.', 's', 't', 'a', 't', 'e'], 4096)]

/-- The names and sizes of queue files, of which the first has the given id. -/
def entriesFrom (id : ℕ) (files : List PeerFile) : List (FileName × ℕ) :=
  (files.zipIdx id).map fun (f, i) => (idName i f.description, f.size)

/-- `entry`, as far as it is compared. -/
def entryKey (minAccept : ℕ) : List Char := (['i', 'd', ':'] ++ decimal6 minAccept).take 9

/-- The body of the loop over the listing, on `next_min_accept` and the executed names. -/
def syncCase (inst : Instance) (maxStartId : ℕ) (t : ℕ × List FileName) (e : FileName × ℕ) :
    ℕ × List FileName :=
  let nextMinAccept := t.1 + 1
  if e.2 ≠ 0 ∧ e.2 ≤ maxFile then
    if nextMinAccept < maxStartId ∨ !isKnownCase inst e.1 then (nextMinAccept, t.2 ++ [e.1])
    else (nextMinAccept, t.2)
  else (nextMinAccept, t.2)

namespace SyncState

/-- Secondary nodes sync from the main node only, unless they are its substitute. -/
def visits (inst : Instance) (s : SyncState) (peerIsMain : Bool) : Bool :=
  !inst.isSecondaryNode || s.isMainNode || peerIsMain

/-- The command line of the peer is not older than this visit. -/
def restarted (s : SyncState) : Bool := s.clock ≠ 0 && s.clock ≤ s.cmdlineMtime

/-- The part of a pass behind the check for a restart. -/
def importNew (inst : Instance) (s : SyncState) : SyncState :=
  let namelist := alphasort (dotEntries ++ entriesFrom 0 s.files)
  let nextMinAccept := s.synced.getD 0
  let maxStartId := s.maxId.getD 0
  let s := if maxStartId < nextMinAccept then { s with maxId := none } else s
  match namelist.dropWhile fun e => e.1.take 9 ≠ entryKey nextMinAccept with
  | [] => s
  | e :: rest =>
    let t := (e :: rest).foldl (syncCase inst maxStartId) (nextMinAccept, s.executed)
    { s with synced := some t.1, executed := t.2 }

/-- One iteration of the loop over the other fuzzers. -/
def syncPeer (inst : Instance) (s : SyncState) (peerIsMain : Bool) : SyncState :=
  if !s.visits inst peerIsMain then s
  else
    let s := if inst.isSecondaryNode && s.isMainNode && peerIsMain then
      { s with isMainNode := false } else s
    if s.restarted then { s with synced := some 0 } else s.importNew inst

end SyncState

/-- The peer adds a file, time goes on, or a pass of this fuzzer comes to the peer. -/
inductive Event
  | append (file : PeerFile)
  | tick (seconds : ℕ)
  | pass (peerIsMain : Bool)

namespace SyncState

def step (inst : Instance) (s : SyncState) : Event → SyncState
  | .append file => { s with files := s.files ++ [file] }
  | .tick seconds => { s with clock := s.clock + seconds }
  | .pass peerIsMain => s.syncPeer inst peerIsMain

def run (inst : Instance) (s : SyncState) (events : List Event) : SyncState :=
  events.foldl (step inst) s

/-- Nothing has been imported from the peer yet. -/
structure Initial (s : SyncState) : Prop where
  synced_eq : s.synced.getD 0 = 0
  executed_eq : s.executed = []
  clock_pos : 0 < s.clock

/-- The pass comes to the import. -/
def Imports (inst : Instance) (s : SyncState) (peerIsMain : Bool) : Prop :=
  s.visits inst peerIsMain = true ∧ s.restarted = false

/-- What an importing pass needs: no id has more than six digits, and neither has the counter. -/
def StepMeets (inst : Instance) (s : SyncState) : Event → Prop
  | .pass peerIsMain => s.Imports inst peerIsMain →
    s.files.length ≤ 10 ^ 6 ∧ s.synced.getD 0 < 10 ^ 6
  | _ => True

def RunMeets (inst : Instance) : SyncState → List Event → Prop
  | _, [] => True
  | s, e :: events => s.StepMeets inst e ∧ RunMeets inst (s.step inst e) events

end SyncState

end AflPlusPlus.SyncFuzzers
