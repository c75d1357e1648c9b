import DefLoad.Kdl.Token

/-!
From tokens to elements. An entry has a blank before it; a node ends at a newline, a semicolon, a
closing brace or the end of the document. A slash and a dash comment out the node, entry or block
that follows them.
-/

namespace DefLoad.Kdl

def skipBlanks (ts : List Token) : List Token := ts.dropWhile Token.isBlank

def skipLineSpace (ts : List Token) : List Token := ts.dropWhile Token.isLineSpace

/-- The rest after a type annotation and its blanks, if there is one. -/
def skipAnnotation : List Token → Option (List Token)
  | .openParen :: ts =>
    match skipBlanks ts with
    | .text _ :: ts =>
      match skipBlanks ts with
      | .closeParen :: ts => some (skipBlanks ts)
      | _ => none
    | _ => none
  | ts => some ts

def readValue (ts : List Token) : Option (Value × List Token) :=
  match skipAnnotation ts with
  | some (.text s :: rest) => some (.text s, rest)
  | some (.literal v :: rest) => some (v, rest)
  | _ => none

def readEntry : List Token → Option (Entry × List Token)
  | .text s :: rest =>
    match skipBlanks rest with
    | .equals :: rest => (readValue (skipBlanks rest)).map fun (v, rest) => (.property s v, rest)
    | _ => some (.argument (.text s), rest)
  | ts => (readValue ts).map fun (v, rest) => (.argument v, rest)

def startsEntry : List Token → Bool
  | .text _ :: _ | .literal _ :: _ | .openParen :: _ => true
  | _ => false

def startsNode : List Token → Bool
  | .text _ :: _ | .openParen :: _ => true
  | _ => false

/-- How many slash-dashes stand at the start, and what they stand before. -/
def splitDashes (ts : List Token) : Nat × List Token :=
  match ts with
  | .slashDash :: _ =>
    ((ts.takeWhile Token.isDashOrLineSpace).count .slashDash,
      ts.dropWhile Token.isDashOrLineSpace)
  | _ => (0, ts)

/-- Reads entries while a blank and the start of an entry follow. Each slash-dash takes the next
entry that no later one has taken; so many of them are `pending`. -/
def readEntries : Nat → Nat → List Token → Option (List Entry × List Token)
  | n + 1, pending, .blank :: ts =>
    let (dashes, rest) := splitDashes (skipBlanks ts)
    if startsEntry rest then
      (readEntry rest).bind fun (e, rest) =>
        match pending + dashes with
        | 0 => (readEntries n 0 rest).map fun (es, rest) => (e :: es, rest)
        | k + 1 => readEntries n k rest
    else if pending = 0 then some ([], .blank :: ts)
    else none
  | _, pending, ts => if pending = 0 then some ([], ts) else none

/-- The rest after the end of a node, where one stands. -/
def dropEnd? : List Token → Option (List Token)
  | .newline :: rest | .semicolon :: rest => some rest
  | _ => none

mutual

/-- Nodes, up to what cannot be a node. Where none is, a semicolon may stand. -/
def readNodes : Nat → List Token → Option (List Element × List Token)
  | 0, _ => none
  | n + 1, ts =>
    (skipToNode n ts).bind fun
      | .semicolon :: rest => (skipToNode n rest).map ([], ·)
      | rest => readSiblings n rest

/-- Nodes from the start of one on. A node that nothing ends is the last. -/
def readSiblings : Nat → List Token → Option (List Element × List Token)
  | 0, _ => none
  | n + 1, ts =>
    if startsNode ts then
      (readNode n ts).bind fun (e, rest) =>
        match dropEnd? rest with
        | some rest =>
          (skipToNode n rest).bind fun rest =>
            (readSiblings n rest).map fun (es, rest) => (e :: es, rest)
        | none => (skipToNode n rest).map ([e], ·)
    else some ([], ts)

/-- The rest after line space and nodes that are commented out, which need no end of their own. -/
def skipToNode : Nat → List Token → Option (List Token)
  | 0, _ => none
  | n + 1, ts =>
    match skipLineSpace ts with
    | .slashDash :: rest =>
      (readNode n (skipLineSpace rest)).bind fun (_, rest) => skipToNode n rest
    | rest => some rest

def readNode : Nat → List Token → Option (Element × List Token)
  | 0, _ => none
  | n + 1, ts =>
    match skipAnnotation ts with
    | some (.text name :: rest) =>
      (readEntries rest.length 0 rest).bind fun (entries, rest) =>
        (readChildren n rest).map fun (children, rest) => (⟨name, entries, children⟩, rest)
    | _ => none

/-- The block of children, if there is one. Blocks that are commented out may stand behind a blank
before it, and anywhere after it. Blanks after a block are left, so a node does not end behind them
where it would without a block. -/
def readChildren : Nat → List Token → Option (List Element × List Token)
  | 0, _ => none
  | n + 1, ts =>
    (if ts.head? = some .blank then skipBlocks n ts else some ts).bind fun rest =>
      match skipBlanks rest with
      | .openBrace :: rest =>
        (readBlock n rest).bind fun (children, rest) => (skipBlocks n rest).map (children, ·)
      | rest => some ([], rest)

/-- The rest after blocks that are commented out, with blanks between them. -/
def skipBlocks : Nat → List Token → Option (List Token)
  | 0, _ => none
  | n + 1, ts =>
    match skipBlanks ts with
    | .slashDash :: rest =>
      match skipLineSpace rest with
      | .openBrace :: rest =>
        (readBlock n rest).bind fun (_, rest) =>
          if rest.head? = some .blank then skipBlocks n rest else some rest
      | _ => some ts
    | _ => some ts

/-- The children of a block after its opening brace. -/
def readBlock : Nat → List Token → Option (List Element × List Token)
  | 0, _ => none
  | n + 1, ts =>
    match readNodes n ts with
    | some (children, .closeBrace :: rest) => some (children, rest)
    | _ => none

end

/-- The elements of a document. Between two tokens read there are at most four steps. -/
def Element.ofTokens? (ts : List Token) : Option (List Element) :=
  match readNodes (4 * ts.length + 4) ts with
  | some (elements, []) => some elements
  | _ => none

end DefLoad.Kdl
