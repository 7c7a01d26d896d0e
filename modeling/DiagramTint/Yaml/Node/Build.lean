import DiagramTint.Yaml.Node
import DiagramTint.Yaml.Token.Scan

/-!
# From tokens to documents

The tokens are taken one after the other with a stack of the collections that are still open. A
collection either has room for a node or waits for an indicator; where an indicator comes and a node
had room, the node is empty.
-/

namespace DiagramTint.Yaml

/-- What an open mapping waits for. -/
inductive PairStage where
  /-- The next pair, or, in a flow mapping, a comma before it. -/
  | between
  /-- In a flow mapping, a key without mark. -/
  | entry
  | key
  | colon (key : Node)
  | value (key : Node)

/-- An open collection, with its tag and the place of its anchor. `room` says that a sequence has
room for an item. -/
inductive Frame where
  | root (node : Option Node)
  | blockSequence (tag : Option String) (place : Option Nat) (items : List Node) (room : Bool)
  /-- A sequence that is not indented further than the mapping around it. -/
  | flushSequence (tag : Option String) (place : Option Nat) (items : List Node) (room : Bool)
  | blockMapping (tag : Option String) (place : Option Nat) (pairs : List (Node × Node))
      (stage : PairStage)
  | flowSequence (tag : Option String) (place : Option Nat) (items : List Node) (room : Bool)
  | flowMapping (tag : Option String) (place : Option Nat) (pairs : List (Node × Node))
      (stage : PairStage)
  /-- A single pair as an item of a flow sequence. -/
  | flowPair (stage : PairStage)

namespace PairStage

def hasRoom : PairStage → Bool
  | .entry | .key | .value _ => true
  | .between | .colon _ => false

end PairStage

/-- Whether a node may come next. -/
def Frame.hasRoom : Frame → Bool
  | .root node => node.isNone
  | .blockSequence _ _ _ room | .flushSequence _ _ _ room | .flowSequence _ _ _ room => room
  | .blockMapping _ _ _ stage | .flowMapping _ _ _ stage | .flowPair stage => stage.hasRoom

/-- Puts a node where the innermost collection has room for it. -/
def Frame.fill (n : Node) : List Frame → Except Error (List Frame)
  | .root none :: rest => .ok (.root (some n) :: rest)
  | .blockSequence tag place items true :: rest =>
    .ok (.blockSequence tag place (items ++ [n]) false :: rest)
  | .flushSequence tag place items true :: rest =>
    .ok (.flushSequence tag place (items ++ [n]) false :: rest)
  | .blockMapping tag place pairs .key :: rest =>
    .ok (.blockMapping tag place pairs (.colon n) :: rest)
  | .blockMapping tag place pairs (.value k) :: rest =>
    .ok (.blockMapping tag place (pairs ++ [(k, n)]) .between :: rest)
  | .flowSequence tag place items true :: rest =>
    .ok (.flowSequence tag place (items ++ [n]) false :: rest)
  | .flowMapping tag place pairs .entry :: rest =>
    .ok (.flowMapping tag place (pairs ++ [(n, .empty)]) .between :: rest)
  | .flowMapping tag place pairs .key :: rest =>
    .ok (.flowMapping tag place pairs (.colon n) :: rest)
  | .flowMapping tag place pairs (.value k) :: rest =>
    .ok (.flowMapping tag place (pairs ++ [(k, n)]) .between :: rest)
  | .flowPair .key :: rest => .ok (.flowPair (.colon n) :: rest)
  | .flowPair (.value k) :: rest => fill (.mapping none [(k, n)]) rest
  | _ => .error .unexpectedToken

/-- The state while a document is built: the tag handles, the properties read for the next node,
the open collections, the innermost first, and the anchors. -/
structure Build where
  handles : List (String × List UInt8)
  anchor : Option String := none
  tag : Option (List UInt8) := none
  frames : List Frame := [.root none]
  anchors : Anchors := {}

namespace Build

/-- Whether the innermost open collection has room for a node. -/
def hasRoom (b : Build) : Bool :=
  (b.frames.head?.map Frame.hasRoom).getD false

/-- Whether properties were read for the next node. -/
def hasProperties (b : Build) : Bool :=
  b.anchor.isSome || b.tag.isSome

/-- The text of the tag that was read. A tag that is not UTF-8 has none. -/
def tagText (b : Build) : Option String :=
  b.tag.bind fun octets => String.fromUTF8? ⟨octets.toArray⟩

/-- Gives the anchor that was read its number. -/
def takeAnchor (b : Build) : Option Nat × Build :=
  match b.anchor with
  | none => (none, b)
  | some name =>
    let (place, anchors) := b.anchors.define name
    (some place, { b with anchor := none, anchors := anchors })

/-- Puts a complete node where there is room for it. -/
def complete (b : Build) (place : Option Nat) (n : Node) (frames : List Frame) :
    Except Error Build :=
  match Frame.fill n frames with
  | .error e => .error e
  | .ok frames =>
    .ok { b with frames := frames, tag := none, anchors := b.anchors.complete place n }

/-- Adds a scalar with the properties that were read for it. -/
def addScalar (b : Build) (style : Style) (text : List Char) : Except Error Build :=
  let (place, b) := b.takeAnchor
  b.complete place (.scalar b.tagText style text) b.frames

/-- Opens a collection with the properties that were read for it. -/
def openFrame (b : Build) (frame : Option String → Option Nat → Frame) : Build :=
  let (place, b) := b.takeAnchor
  { b with frames := frame b.tagText place :: b.frames, tag := none }

/-- Closes the innermost collection if `t` is the token that ends it. -/
def close (b : Build) (t : Token) : Except Error Build :=
  match b.frames, t with
  | .blockSequence tag place items _ :: rest, .blockEnd
  | .flowSequence tag place items _ :: rest, .flowSequenceEnd =>
    b.complete place (.sequence tag items) rest
  | .blockMapping tag place pairs _ :: rest, .blockEnd
  | .flowMapping tag place pairs _ :: rest, .flowMappingEnd =>
    b.complete place (.mapping tag pairs) rest
  | _, _ => .error .unexpectedToken

/-- Ends a flush sequence before an indicator that is not its own. -/
def settleSequence (b : Build) (t : Token) : Except Error Build :=
  match b.frames with
  | .flushSequence tag place items false :: rest =>
    if t = .blockEntry then .ok b else b.complete place (.sequence tag items) rest
  | _ => .ok b

/-- Gives a key without colon the empty value before an indicator other than a colon. -/
def settlePair (b : Build) (t : Token) : Except Error Build :=
  if t = .value then .ok b
  else
    match b.frames with
    | .blockMapping tag place pairs (.colon k) :: rest =>
      .ok { b with frames := .blockMapping tag place (pairs ++ [(k, .empty)]) .between :: rest }
    | .flowMapping tag place pairs (.colon k) :: rest =>
      .ok { b with frames := .flowMapping tag place (pairs ++ [(k, .empty)]) .between :: rest }
    | .flowPair (.colon k) :: rest => b.complete none (.mapping none [(k, .empty)]) rest
    | _ => .ok b

/-- Takes an indicator where no node has room. -/
def takeIndicator (b : Build) (t : Token) : Except Error Build :=
  match b.frames, t with
  | .blockSequence tag place items false :: rest, .blockEntry =>
    .ok { b with frames := .blockSequence tag place items true :: rest }
  | .flushSequence tag place items false :: rest, .blockEntry =>
    .ok { b with frames := .flushSequence tag place items true :: rest }
  | .flowSequence tag place items false :: rest, .flowEntry =>
    .ok { b with frames := .flowSequence tag place items true :: rest }
  | .blockMapping tag place pairs .between :: rest, .key =>
    .ok { b with frames := .blockMapping tag place pairs .key :: rest }
  | .blockMapping tag place pairs (.colon k) :: rest, .value =>
    .ok { b with frames := .blockMapping tag place pairs (.value k) :: rest }
  | .flowMapping tag place pairs .between :: rest, .flowEntry =>
    .ok { b with frames := .flowMapping tag place pairs .entry :: rest }
  | .flowMapping tag place pairs (.colon k) :: rest, .value =>
    .ok { b with frames := .flowMapping tag place pairs (.value k) :: rest }
  | .flowPair (.colon k) :: rest, .value =>
    .ok { b with frames := .flowPair (.value k) :: rest }
  | _, t => b.close t

/-- Takes an indicator where no node has room, after what it leaves out. -/
def settleAndTake (b : Build) (t : Token) : Except Error Build :=
  match b.settleSequence t with
  | .error e => .error e
  | .ok b =>
    match b.settlePair t with
    | .error e => .error e
    | .ok b => b.takeIndicator t

/-- Takes an indicator where a node had room: the node is empty. -/
def leaveEmpty (b : Build) (t : Token) : Except Error Build :=
  match b.addScalar .plain [] with
  | .error e => .error e
  | .ok b => b.settleAndTake t

/-- Takes an indicator. The room after an opening bracket or a comma can be left without a node. -/
def indicator (b : Build) (t : Token) : Except Error Build :=
  if !b.hasRoom then b.settleAndTake t
  else
    match b.frames, t with
    | .blockMapping _ _ _ _ :: _, .blockEntry =>
      .ok (b.openFrame fun tag place => .flushSequence tag place [] true)
    | .flowSequence _ _ _ _ :: _, t =>
      if b.hasProperties then b.leaveEmpty t
      else if t = .key then .ok { b with frames := .flowPair .key :: b.frames }
      else b.close t
    | .flowMapping tag place pairs .entry :: rest, t =>
      if b.hasProperties then b.leaveEmpty t
      else if t = .key then .ok { b with frames := .flowMapping tag place pairs .key :: rest }
      else b.close t
    | .flowPair .key :: rest, t =>
      -- a pair that starts with an indicator loses that indicator
      if !b.hasProperties && (t = .value || t = .flowEntry || t = .flowSequenceEnd) then
        .ok { b with frames := .flowPair (.colon .empty) :: rest }
      else b.leaveEmpty t
    | .root _ :: _, t => if b.hasProperties then b.leaveEmpty t else .error .unexpectedToken
    | _, t => b.leaveEmpty t

/-- What a tag stands for, its handle expanded. -/
def expandTag (b : Build) (handle : String) (suffix : List UInt8) : Except Error (List UInt8) :=
  if handle.isEmpty then .ok suffix
  else
    match b.handles.find? fun entry => entry.1 = handle with
    | none => .error .undefinedTagHandle
    | some (_, expansion) => .ok (expansion ++ suffix)

/-- Takes one token of the content of a document. -/
def step (b : Build) (t : Token) : Except Error Build :=
  match t with
  | .blockEntry | .flowEntry | .key | .value | .blockEnd | .flowSequenceEnd | .flowMappingEnd =>
    b.indicator t
  | _ =>
    if !b.hasRoom then .error .unexpectedToken
    else
      match t with
      | .anchor name =>
        if b.anchor.isSome then .error .unexpectedToken else .ok { b with anchor := some name }
      | .tag handle suffix =>
        if b.tag.isSome then .error .unexpectedToken
        else
          match b.expandTag handle suffix with
          | .error e => .error e
          | .ok octets => .ok { b with tag := some octets }
      | .alias name =>
        if b.hasProperties then .error .unexpectedToken
        else
          match b.anchors.number? name with
          | none => .error .undefinedAnchor
          | some number => b.complete none (.alias number) b.frames
      | .scalar style text => b.addScalar style text
      | .blockSequenceStart =>
        .ok (b.openFrame fun tag place => .blockSequence tag place [] false)
      | .blockMappingStart =>
        .ok (b.openFrame fun tag place => .blockMapping tag place [] .between)
      | .flowSequenceStart =>
        .ok (b.openFrame fun tag place => .flowSequence tag place [] true)
      | .flowMappingStart =>
        .ok (b.openFrame fun tag place => .flowMapping tag place [] .entry)
      | _ => .error .unexpectedToken

/-- The document that is complete when its content ends. -/
def finish (b : Build) : Except Error Document :=
  match b.frames with
  | [.root (some n)] => .ok ⟨n, b.anchors⟩
  | [.root none] =>
    if b.hasProperties then
      match b.addScalar .plain [] with
      | .error e => .error e
      | .ok b =>
        match b.frames with
        | [.root (some n)] => .ok ⟨n, b.anchors⟩
        | _ => .error .unexpectedEnd
    else .error .unexpectedEnd
  | _ => .error .unexpectedEnd

/-- Takes all tokens of the content of a document. -/
def run (b : Build) : List Token → Except Error Document
  | [] => b.finish
  | t :: ts =>
    match b.step t with
    | .error e => .error e
    | .ok next => next.run ts

end Build

namespace Document

/-- The tag handles that need no directive. -/
def defaultHandles : List (String × List UInt8) :=
  [("!", ['!'.toUInt8]), ("!!", "tag:yaml.org,2002:".toList.map Char.toUInt8)]

/-- The tag handles of a document with these directives. Only the versions 1.1 and 1.2 can be
asked for, once, and no handle twice. -/
def handles (seenVersion : Bool) (found : List (String × List UInt8)) :
    List Token → Except Error (List (String × List UInt8))
  | [] => .ok (found ++ defaultHandles)
  | .version major minor :: ts =>
    if seenVersion || major ≠ 1 || (minor ≠ 1 && minor ≠ 2) then .error .invalidDirective
    else handles true found ts
  | .tagHandle handle expansion :: ts =>
    if found.any fun entry => entry.1 = handle then .error .invalidDirective
    else handles seenVersion (found ++ [(handle, expansion)]) ts
  | _ => .error .unexpectedToken

def isDirective : Token → Bool
  | .version _ _ | .tagHandle _ _ => true
  | _ => false

/-- Whether a token stands outside the content of documents. -/
def isBoundary : Token → Bool
  | .documentStart | .documentEnd => true
  | t => isDirective t

/-- The document with this content; `explicit` says that its start is marked, so that it may be
empty. Nothing but marks of its end may follow. -/
def ofContent (explicit : Bool) (handles : List (String × List UInt8)) (ts : List Token) :
    Except Error Document :=
  let content := ts.takeWhile fun t => !isBoundary t
  let after := ts.dropWhile fun t => !isBoundary t
  let read :=
    if explicit && content.isEmpty then .ok ⟨.empty, {}⟩
    else Build.run { handles := handles } content
  match read with
  | .error e => .error e
  | .ok d => if after.all (· = .documentEnd) then .ok d else .error .severalDocuments

/-- The document of a token stream, if there is one. -/
def ofTokens (ts : List Token) : Except Error (Option Document) :=
  let directives := ts.takeWhile isDirective
  match handles false [] directives, ts.dropWhile isDirective with
  | .error e, _ => .error e
  | .ok _, [] => if directives.isEmpty then .ok none else .error .unexpectedEnd
  | .ok hs, .documentStart :: rest => (ofContent true hs rest).map some
  | .ok hs, rest =>
    if directives.isEmpty then (ofContent false hs rest).map some else .error .unexpectedToken

/-- Reads a YAML text that holds at most one document. -/
def parse (cs : List Char) : Except Error (Option Document) :=
  match tokenize cs with
  | .error e => .error e
  | .ok ts => ofTokens ts

end Document

end DiagramTint.Yaml
