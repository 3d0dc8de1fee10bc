import Mathlib.Tactic.NormNum
import DevicesTracker.Firebase.Node
import DevicesTracker.Firebase.PushId
/-!
# Firebase — references and writes

A reference is a path into the database. `child` appends the pieces of a
path string after checking it; `childByAutoId` appends a name made of the
time and random characters. `setValue` replaces the subtree at a
reference and `updateChildValues` the named subtrees below it. The app's
references all lie below `Devices`, where the checks made at the root and
under `.info` do not apply.
-/

namespace DevicesTracker

/-- What ends a call of the app without its result: a trap of the Swift
runtime or an exception of the Firebase library. -/
inductive Failure where
  /-- `UInt8(_:)` of a negative `Int8`. -/
  | notRepresentable
  /-- A forced unwrap of nil. -/
  | unexpectedNil
  /-- `InvalidPathValidation`, with its reason. -/
  | invalidPath (reason : String)
  deriving DecidableEq

/-- `FPath`, by its pieces. -/
abbrev FPath := List String

/-- `[FPath initWith:]`: the pieces between slashes that are not empty. -/
def pathWithString (path : String) : FPath :=
  ((path.toList.splitOn '/').filter fun piece => piece ≠ []).map String.ofList

/-- A string without a slash is one piece. -/
theorem pathWithString_of_notMem {s : String} (hne : s ≠ "") (h : '/' ∉ s.toList) :
    pathWithString s = [s] := by
  have hpiece : s.toList ≠ [] := fun hnil => hne (String.toList_eq_nil_iff.1 hnil)
  rw [pathWithString, List.splitOn_eq_singleton h,
    List.filter_cons_of_pos (by simpa using hpiece), List.filter_nil, List.map_singleton,
    String.ofList_toList]

namespace FValidation

def invalidPathCharacters : List Char := ['[', ']', '.', '#', '$']

def isValidPathString (pathString : String) : Bool :=
  pathString ≠ "" && pathString.toList.all fun c => c ∉ invalidPathCharacters

theorem isValidPathString_iff {s : String} :
    isValidPathString s = true ↔ s ≠ "" ∧ ∀ c ∈ s.toList, c ∉ invalidPathCharacters := by
  simp [isValidPathString]

/-- The reason given with `InvalidPathValidation`. -/
def invalidPathReason (fn : String) : String :=
  s!"({fn}) Must be a non-empty string and not contain '.' '#' '$' '[' or ']'"

end FValidation

namespace DatabaseReference

/-- `child:`, below the root. -/
def child (path : FPath) (pathString : String) : Except Failure FPath :=
  if FValidation.isValidPathString pathString then .ok (path ++ pathWithString pathString)
  else .error (.invalidPath (FValidation.invalidPathReason "child:"))

/-- `childByAutoId`. -/
def childByAutoId (path : FPath) (pushId : FNextPushId.State) (serverTime : ℕ)
    (random : List (Fin 64)) : Except Failure (FPath × FNextPushId.State) :=
  let name := FNextPushId.get pushId serverTime random
  (child path name.1).map fun ref => (ref, name.2)

/-- `setValue:`. -/
def setValue (path : FPath) (value : Value) (database : FNode) : FNode :=
  database.updateChild path (FNode.nodeFrom value)

/-- `updateChildValues:`. -/
def updateChildValues (path : FPath) (values : List (String × Value)) (database : FNode) : FNode :=
  values.foldl
    (fun database entry => setValue (path ++ pathWithString entry.1) entry.2 database) database

/-- `exists` of the snapshot a read of the path is answered with. -/
def snapshotExists (path : FPath) (database : FNode) : Bool := !(database.getChild path).isEmpty

theorem child_eq_ok_of_valid {s : String} (h : FValidation.isValidPathString s = true)
    (path : FPath) : child path s = .ok (path ++ pathWithString s) := if_pos h

theorem child_eq_error_of_invalid {s : String} (h : FValidation.isValidPathString s = false)
    (path : FPath) :
    child path s = .error (.invalidPath (FValidation.invalidPathReason "child:")) :=
  if_neg (by simp [h])

/-- **An auto id is always a child name**: one piece, and none that
`child` refuses. -/
theorem childByAutoId_eq_ok (path : FPath) (pushId : FNextPushId.State) (serverTime : ℕ)
    (random : List (Fin 64)) :
    childByAutoId path pushId serverTime random =
      .ok (path ++ [(FNextPushId.get pushId serverTime random).1],
        (FNextPushId.get pushId serverTime random).2) := by
  have hchars : ∀ c ∈ FNextPushId.pushChars, c ∉ FValidation.invalidPathCharacters ∧ c ≠ '/' := by
    have hall : FNextPushId.pushChars.all
        fun c => c ∉ FValidation.invalidPathCharacters ∧ c ≠ '/' := by decide
    simpa only [List.all_eq_true, decide_eq_true_eq] using hall
  have hne := FNextPushId.get_ne_empty pushId serverTime random
  have hmem : ∀ c ∈ (FNextPushId.get pushId serverTime random).1.toList,
      c ∈ FNextPushId.pushChars :=
    fun c h => FNextPushId.mem_pushChars_of_mem_get h
  have hvalid : FValidation.isValidPathString (FNextPushId.get pushId serverTime random).1 = true :=
    FValidation.isValidPathString_iff.2 ⟨hne, fun c h => (hchars c (hmem c h)).1⟩
  have hslash : '/' ∉ (FNextPushId.get pushId serverTime random).1.toList :=
    fun h => (hchars '/' (hmem '/' h)).2 rfl
  simp only [childByAutoId, child_eq_ok_of_valid hvalid, pathWithString_of_notMem hne hslash]
  rfl

/-- An update of one child is a write at that child. -/
theorem updateChildValues_singleton (path : FPath) {key : String}
    (hkey : pathWithString key = [key]) (value : Value) (database : FNode) :
    updateChildValues path [(key, value)] database =
      database.updateChild (path ++ [key]) (FNode.nodeFrom value) := by
  rw [updateChildValues, List.foldl_cons, List.foldl_nil, hkey, setValue]

end DatabaseReference

end DevicesTracker
