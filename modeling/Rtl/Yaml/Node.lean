import Rtl.Yaml.Token

/-!
Nodes of a YAML document: scalars, sequences and mappings. A use of an anchor holds the node that it names. Only the
first document of a text is read; what follows it matters as far as tokens are read ahead.
-/
namespace Rtl.Yaml

inductive Node where
  /-- A plain scalar without a tag has an empty one. -/
  | scalar (tag text : String)
  | sequence (items : List Node)
  | mapping (entries : List (Node × Node))
  /-- The use of an anchor. The node is not known yet where it contains the use. -/
  | alias (name : String) (target : Option Node)
  deriving Repr, Inhabited

namespace Node

/-- The node of a place where nothing is written. -/
def absent : Node := .scalar "" ""

/-- The text before the names of the common types. -/
def commonTags : String := "tag:yaml.org,2002:"

/-- Common types are named behind two exclamation marks. -/
def shortTag (tag : String) : String :=
  if commonTags.toList.isPrefixOf tag.toList then "!!" ++ String.ofList (tag.toList.drop commonTags.length) else tag

/-- A scalar as it is written. Without a tag, or with one that says nothing, it is text unless it is plain. -/
def ofText (isPlain : Bool) (tag text : String) : Node :=
  if tag = "" || tag = "!" then .scalar (if isPlain then "" else "!!str") text else .scalar tag text

/-- A node that has been started under an anchor, with its number and, once it is read, the node. -/
structure Anchor where
  name : String
  number : Nat
  node : Option Node

/-- What is left to read. -/
structure Source where
  scanner : Scanner
  /-- What the handles of tags stand for. -/
  handles : List (String × String)
  /-- The latest comes first. -/
  anchors : List Anchor

/-- Reads a part of a document, or finds that it is none. -/
abbrev Reader := StateT Source Option

namespace Reader

def peek : Reader Token := do
  let src ← get
  let (t, scanner) ← src.scanner.peek?
  set { src with scanner := scanner }
  return t

def skip : Reader Unit := modify fun src => { src with scanner := src.scanner.skip }

/-- The tag for a handle and a suffix; the handle must be known. -/
def expandTag (handle suffix : String) : Reader String := do
  if handle = "" then return shortTag suffix
  else
    let (_, text) ← (← get).handles.find? (·.1 = handle)
    return shortTag (text ++ suffix)

/-- The anchor and the tag in front of a node, in any order; what is not there is empty. -/
def properties : Reader (String × String) := do
  match ← peek with
  | .anchor a =>
    skip
    match ← peek with
    | .tag handle suffix =>
      skip
      return (a, ← expandTag handle suffix)
    | _ => return (a, "")
  | .tag handle suffix =>
    skip
    match ← peek with
    | .anchor a =>
      skip
      return (a, ← expandTag handle suffix)
    | _ => return ("", ← expandTag handle suffix)
  | _ => return ("", "")

def find (name : String) : Reader (Option Node) := do
  let a ← (← get).anchors.find? (·.name = name)
  return a.node

def openAnchor (name : String) : Reader Nat := do
  let src ← get
  let number := src.anchors.length
  set { src with anchors := ⟨name, number, none⟩ :: src.anchors }
  return number

/-- Notes the node of an anchor, which may have been given to a node inside in the meantime. -/
def closeAnchor (number : Nat) (n : Node) : Reader Unit :=
  modify fun src =>
    { src with anchors := src.anchors.map fun a => if a.number = number then { a with node := some n } else a }

end Reader

open Reader

/-- Where a node stands. -/
inductive Place where
  | flow
  | block
  /-- In a block where the entries of a sequence need no further indentation. -/
  | loose
  deriving DecidableEq

mutual

def read : Nat → Place → Reader Node
  | 0, _ => failure
  | fuel + 1, place => do
    match ← peek with
    | .alias a =>
      let target ← find a
      skip
      return .alias a target
    | _ =>
      let (anchor, tag) ← properties
      if anchor = "" then readContent fuel place (tag != "") tag
      else
        let number ← openAnchor anchor
        let n ← readContent fuel place true tag
        closeAnchor number n
        return n

/-- A node without what stands in front of it. Properties may stand alone; otherwise there must be a node. -/
def readContent : Nat → Place → Bool → String → Reader Node
  | 0, _, _, _ => failure
  | fuel + 1, place, optional, tag => do
    let empty : Reader Node := if optional then return ofText true tag "" else failure
    match ← peek with
    | .scalar isPlain text =>
      skip
      return ofText isPlain tag text
    | .flowSequenceStart =>
      skip
      return .sequence (← readFlowSequence fuel true)
    | .flowMappingStart =>
      skip
      return .mapping (← readFlowMapping fuel true)
    | .entry => if place = .loose then return .sequence (← readLoose fuel) else empty
    | .sequenceStart =>
      if place = .flow then empty
      else
        skip
        return .sequence (← readSequence fuel)
    | .mappingStart =>
      if place = .flow then empty
      else
        skip
        return .mapping (← readMapping fuel)
    | _ => empty

/-- A node, or nothing where one of the given tokens stands instead. -/
def readUnless : Nat → List Token → Place → Reader Node
  | 0, _, _ => failure
  | fuel + 1, stops, place => do if (← peek) ∈ stops then return absent else read fuel place

/-- A node after a colon, or nothing. -/
def readValue : Nat → List Token → Place → Reader Node
  | 0, _, _ => failure
  | fuel + 1, stops, place => do
    if (← peek) = .value then
      skip
      readUnless fuel stops place
    else return absent

/-- The entries of a sequence with its own indentation. -/
def readSequence : Nat → Reader (List Node)
  | 0 => failure
  | fuel + 1 => do
    match ← peek with
    | .entry =>
      skip
      let n ← readUnless fuel [.entry, .blockEnd] .block
      return n :: (← readSequence fuel)
    | .blockEnd =>
      skip
      return []
    | _ => failure

/-- The entries of a sequence at the indentation of the key before it. -/
def readLoose : Nat → Reader (List Node)
  | 0 => failure
  | fuel + 1 => do
    match ← peek with
    | .entry =>
      skip
      let n ← readUnless fuel [.entry, .key, .value, .blockEnd] .block
      return n :: (← readLoose fuel)
    | _ => return []

def readMapping : Nat → Reader (List (Node × Node))
  | 0 => failure
  | fuel + 1 => do
    match ← peek with
    | .key =>
      skip
      let k ← readUnless fuel [.key, .value, .blockEnd] .loose
      let v ← readValue fuel [.key, .value, .blockEnd] .loose
      return (k, v) :: (← readMapping fuel)
    | .blockEnd =>
      skip
      return []
    | _ => failure

/-- The items of a sequence in brackets. A key makes an item a mapping of one entry; where the key is missing, the
token after it is passed over. -/
def readFlowSequence : Nat → Bool → Reader (List Node)
  | 0, _ => failure
  | fuel + 1, first => do
    let t ← peek
    if t = .flowSequenceEnd then
      skip
      return []
    else if !first && t != .flowEntry then failure
    else
      if !first then skip
      let t ← peek
      if t = .flowSequenceEnd then
        skip
        return []
      else if t = .key then
        skip
        let isMissing := (← peek) ∈ [.value, .flowEntry, .flowSequenceEnd]
        if isMissing then skip
        let k ← if isMissing then pure absent else read fuel .flow
        let v ← readValue fuel [.flowEntry, .flowSequenceEnd] .flow
        return .mapping [(k, v)] :: (← readFlowSequence fuel false)
      else
        let n ← read fuel .flow
        return n :: (← readFlowSequence fuel false)

/-- The entries of a mapping in braces. -/
def readFlowMapping : Nat → Bool → Reader (List (Node × Node))
  | 0, _ => failure
  | fuel + 1, first => do
    let t ← peek
    if t = .flowMappingEnd then
      skip
      return []
    else if !first && t != .flowEntry then failure
    else
      if !first then skip
      let t ← peek
      if t = .flowMappingEnd then
        skip
        return []
      else if t = .key then
        skip
        let k ← readUnless fuel [.value, .flowEntry, .flowMappingEnd] .flow
        let v ← readValue fuel [.flowEntry, .flowMappingEnd] .flow
        return (k, v) :: (← readFlowMapping fuel false)
      else
        let n ← read fuel .flow
        return (n, absent) :: (← readFlowMapping fuel false)

end

/-- The handles that are known without a directive. -/
def knownHandles : List (String × String) := [("!", "!"), ("!!", commonTags)]

/-- The directives of a document, each of which is given once. Only one version of the language is known. -/
def readDirectives : Nat → Bool → List (String × String) → Reader (Bool × List (String × String))
  | 0, _, _ => failure
  | fuel + 1, versionGiven, handles => do
    match ← peek with
    | .directive (.version major minor) =>
      skip
      if versionGiven || major != 1 || minor != 1 then failure else readDirectives fuel true handles
    | .directive (.tagHandle handle text) =>
      skip
      if handles.any (·.1 = handle) then failure
      else readDirectives fuel versionGiven (handles ++ [(handle, text)])
    | _ => return (versionGiven || !handles.isEmpty, handles)

/-- Whether a document that is announced has no content, because the token belongs to what follows it. -/
def endsDocument : Token → Bool
  | .directive _ | .documentStart | .documentEnd | .streamEnd => true
  | _ => false

/-- The first document, and the token after it; absent if the text has none. -/
def readDocument (fuel : Nat) : Reader (Option Node) := do
  skip
  let (hasDirectives, handles) ← readDirectives fuel false []
  modify fun src => { src with handles := handles ++ knownHandles }
  let t ← peek
  let isAnnounced := t = .documentStart
  if hasDirectives && !isAnnounced then failure
  else if t = .streamEnd then return none
  else
    if isAnnounced then skip
    let isEmpty := isAnnounced && endsDocument (← peek)
    let n ← if isEmpty then pure absent else read fuel .block
    let _ ← peek
    return some n

def parse? (text : String) : Option (Option Node) :=
  let cs := text.toList
  (readDocument (8 * cs.length + 16)).run' ⟨.start cs, [], []⟩

end Node
end Rtl.Yaml
