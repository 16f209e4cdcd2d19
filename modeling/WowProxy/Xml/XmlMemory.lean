/-
  Xml/XmlMemory.lean --- what the parser of `xml/xml.c` allocates and frees.

  Strings refer to the buffer, which is the caller's; a string, a node, the array of its
  children and the document are blocks.  The functions are those of the parser with
  their `malloc`, `calloc`, `realloc` and `free`, none of which fails but by a `free` of
  what is not allocated.
-/
import WowProxy.Lib.Blocks
import WowProxy.Xml.AnswerBuffers

set_option autoImplicit false

namespace WowProxy.XmlMem

open WowProxy.Lib.Blocks

/-! ## From the source -/

/-- `struct xml_string` on the heap: its address and the bytes it refers to. -/
abbrev XmlString := Nat × List UInt8

/-- `struct xml_node` on the heap, with the blocks it points to. -/
inductive MemNode where
  | node (addr : Nat) (name : XmlString) (content : Option XmlString) (array : Nat)
      (children : List MemNode)

mutual

/-- `xml_node_free` -/
def xmlNodeFree : MemNode → Prog Unit
  | .node addr name content array children => do
    free name.1
    freeSome (content.map Prod.fst)
    xmlNodesFree children
    free array
    free addr

/-- The loop over the children, here and at `exit_failure`. -/
def xmlNodesFree : List MemNode → Prog Unit
  | [] => pure ()
  | child :: children => do
    xmlNodeFree child
    xmlNodesFree children

end

/-- `xml_parse_tag_open`, `xml_parse_tag_close` and `xml_parse_content` allocate the string
that they return. -/
def newString : Option (List UInt8 × List UInt8) → Prog (Option (XmlString × List UInt8))
  | none => pure none
  | some parsed => do
    let p ← malloc
    return some ((p, parsed.1), parsed.2)

/-- `exit_failure` of `xml_parse_node` -/
def exitFailure (tagOpen tagClose content : Option XmlString) (array : Nat)
    (children : List MemNode) : Prog (Option (MemNode × List UInt8)) := do
  freeSome (tagOpen.map Prod.fst)
  freeSome (tagClose.map Prod.fst)
  freeSome (content.map Prod.fst)
  xmlNodesFree children
  free array
  return none

/-- `node_creation` of `xml_parse_node` -/
def nodeCreation (name : XmlString) (content : Option XmlString) (array : Nat)
    (children : List MemNode) (p : List UInt8) : Prog (Option (MemNode × List UInt8)) := do
  let addr ← malloc
  return some (.node addr name content array children, p)

/-- What `xml_parse_node` has between the tags, and where the parser is then, if nothing
failed. -/
structure Body where
  content : Option XmlString
  array : Nat
  children : List MemNode
  rest : Option (List UInt8)

/-- The loop over the children. -/
def xmlParseChildren (parseNode : List UInt8 → Prog (Option (MemNode × List UInt8))) :
    Nat → Nat → List MemNode → List UInt8 → Prog Body
  | 0, array, children, _ => return ⟨none, array, children, none⟩
  | fuel + 1, array, children, p =>
    if xmlParserPeek p 1 = 47 then return ⟨none, array, children, some p⟩
    else do
      match ← parseNode p with
      | none => return ⟨none, array, children, none⟩
      | some (child, p) =>
        let array ← realloc array
        xmlParseChildren parseNode fuel array (children ++ [child]) p

/-- A text, or children. -/
def xmlParseBody (parseNode : List UInt8 → Prog (Option (MemNode × List UInt8))) (array : Nat)
    (p : List UInt8) : Prog Body :=
  if xmlParserPeek p 0 ≠ 60 then do
    match ← newString (xmlParseContent p) with
    | none => return ⟨none, array, [], none⟩
    | some (content, p) => return ⟨some content, array, [], some p⟩
  else xmlParseChildren parseNode (p.length + 1) array [] p

/-- `xml_parse_node` from the close tag on. -/
def closeNode (tagOpen : XmlString) (body : Body) : Prog (Option (MemNode × List UInt8)) :=
  match body.rest with
  | none => exitFailure (some tagOpen) none body.content body.array body.children
  | some p => do
    match ← newString (xmlParseTagClose p) with
    | none => exitFailure (some tagOpen) none body.content body.array body.children
    | some (tagClose, p) =>
      if xmlStringEquals tagOpen.2 tagClose.2 then do
        free tagClose.1
        nodeCreation tagOpen body.content body.array body.children p
      else exitFailure (some tagOpen) (some tagClose) body.content body.array body.children

/-- `xml_parse_node` -/
def xmlParseNode : Nat → List UInt8 → Prog (Option (MemNode × List UInt8))
  | 0, _ => return none
  | fuel + 1, p => do
    let array ← malloc
    match ← newString (xmlParseTagOpen p) with
    | none => exitFailure none none none array []
    | some (tagOpen, p) =>
      if tagOpen.2.getLast? = some 47 then
        nodeCreation (tagOpen.1, tagOpen.2.dropLast) none array [] p
      else do
        let body ← xmlParseBody (xmlParseNode fuel) array p
        closeNode tagOpen body

/-- `struct xml_document` -/
structure MemDocument where
  addr : Nat
  root : MemNode

/-- `xml_parse_document` -/
def xmlParseDocument (buffer : List UInt8) : Prog (Option MemDocument) :=
  if buffer.length = 0 then return none
  else do
    match ← xmlParseNode buffer.length buffer with
    | none => return none
    | some (root, _) =>
      let addr ← malloc
      return some ⟨addr, root⟩

/-- `xml_document_free(document, false)` -/
def xmlDocumentFree (document : MemDocument) : Prog Unit := do
  xmlNodeFree document.root
  free document.addr

/-! ## Trees -/

mutual

/-- The node without its blocks. -/
def MemNode.erase : MemNode → XmlNode
  | .node _ name content _ children =>
    .node name.2 (content.map Prod.snd) (eraseAll children)

def eraseAll : List MemNode → List XmlNode
  | [] => []
  | child :: children => child.erase :: eraseAll children

end

mutual

/-- The blocks of a node, in the order they are freed. -/
def MemNode.blocks : MemNode → List Nat
  | .node addr name content array children =>
    name.1 :: ((content.map Prod.fst).toList ++ (blocksAll children ++ [array, addr]))

def blocksAll : List MemNode → List Nat
  | [] => []
  | child :: children => child.blocks ++ blocksAll children

end

/-- The blocks of a document. -/
def MemDocument.blocks (document : MemDocument) : List Nat :=
  document.root.blocks ++ [document.addr]

mutual

/-- How many blocks a node takes: its own, its name, the array of its children, a content that
it may have, and those of the children. -/
def nodeBlocks : XmlNode → Nat
  | .node _ content children => content.toList.length + nodesBlocks children + 3

def nodesBlocks : List XmlNode → Nat
  | [] => 0
  | child :: children => nodeBlocks child + nodesBlocks children

end

/-- How many blocks a document takes. -/
def documentBlocks (root : XmlNode) : Nat := nodeBlocks root + 1

mutual

theorem MemNode.length_blocks : ∀ n : MemNode, n.blocks.length = nodeBlocks n.erase
  | .node addr name content array children => by
    have hchildren := length_blocksAll children
    rw [MemNode.erase, nodeBlocks, MemNode.blocks, List.length_cons, List.length_append,
      List.length_append, hchildren]
    cases content with
    | none => simp
    | some content =>
      simp only [Option.map_some, Option.toList_some, List.length_cons, List.length_nil]
      omega

theorem length_blocksAll : ∀ ns : List MemNode, (blocksAll ns).length = nodesBlocks (eraseAll ns)
  | [] => rfl
  | n :: ns => by
    rw [blocksAll, eraseAll, nodesBlocks, List.length_append, n.length_blocks,
      length_blocksAll ns]

end

theorem MemDocument.length_blocks (document : MemDocument) :
    document.blocks.length = documentBlocks document.root.erase := by
  rw [MemDocument.blocks, List.length_append, document.root.length_blocks]
  rfl

theorem eraseAll_append (ns ms : List MemNode) :
    eraseAll (ns ++ ms) = eraseAll ns ++ eraseAll ms := by
  induction ns with
  | nil => rfl
  | cons n ns ih => rw [List.cons_append, eraseAll, ih, eraseAll, List.cons_append]

theorem blocksAll_append (ns ms : List MemNode) :
    blocksAll (ns ++ ms) = blocksAll ns ++ blocksAll ms := by
  induction ns with
  | nil => rfl
  | cons n ns ih => rw [List.cons_append, blocksAll, ih, blocksAll, List.append_assoc]

/-! ## Freeing -/

mutual

/-- A node is freed with all its blocks. -/
theorem owns_xmlNodeFree : ∀ (n : MemNode) (rest : List Nat),
    Owns (n.blocks ++ rest) (xmlNodeFree n) fun _ own => own = rest
  | .node addr name content array children, rest => by
    rw [MemNode.blocks, xmlNodeFree, List.cons_append, List.append_assoc, List.append_assoc]
    refine (Owns.free name.1 _).bind fun _ own hown => ?_
    subst hown
    refine (Owns.freeSome (content.map Prod.fst) _).bind fun _ own hown => ?_
    subst hown
    refine (owns_xmlNodesFree children _).bind fun _ own hown => ?_
    subst hown
    refine (Owns.free array _).bind fun _ own hown => ?_
    subst hown
    exact .free addr rest

theorem owns_xmlNodesFree : ∀ (ns : List MemNode) (rest : List Nat),
    Owns (blocksAll ns ++ rest) (xmlNodesFree ns) fun _ own => own = rest
  | [], rest => .pure rfl
  | n :: ns, rest => by
    rw [blocksAll, xmlNodesFree, List.append_assoc]
    refine (owns_xmlNodeFree n _).bind fun _ own hown => ?_
    subst hown
    exact owns_xmlNodesFree ns rest

end

/-- A document is freed with all its blocks. -/
theorem owns_xmlDocumentFree (document : MemDocument) (rest : List Nat) :
    Owns (document.blocks ++ rest) (xmlDocumentFree document) fun _ own => own = rest := by
  rw [MemDocument.blocks, List.append_assoc, xmlDocumentFree]
  refine (owns_xmlNodeFree document.root _).bind fun _ own hown => ?_
  subst hown
  exact .free document.addr rest

/-! ## Parsing -/

/-- The blocks of a string, if it is there. -/
def stringBlocks (s : Option XmlString) : List Nat := (s.map Prod.fst).toList

/-- What `xml_parse_node` gives back is the node that is expected, and what is allocated
beside `pre` is its blocks. -/
def Parsed (expected : Option (XmlNode × List UInt8)) (pre : List Nat)
    (parsed : Option (MemNode × List UInt8)) (own : List Nat) : Prop :=
  parsed.map (fun parsed => (parsed.1.erase, parsed.2)) = expected ∧
    own.Perm ((parsed.map fun parsed => parsed.1.blocks).getD [] ++ pre)

theorem owns_newString (s : Option (List UInt8 × List UInt8)) (pre : List Nat) :
    Owns pre (newString s) fun r own =>
      r.map (fun r => (r.1.2, r.2)) = s ∧ own = stringBlocks (r.map Prod.fst) ++ pre := by
  cases s with
  | none => exact .pure ⟨rfl, rfl⟩
  | some s =>
    refine (Owns.malloc pre).bind fun p own hown => ?_
    subst hown
    exact .pure ⟨rfl, rfl⟩

theorem owns_exitFailure (tagOpen tagClose content : Option XmlString) (array : Nat)
    (children : List MemNode) (pre : List Nat) :
    Owns (stringBlocks tagOpen ++ (stringBlocks tagClose ++ (stringBlocks content ++
        (blocksAll children ++ array :: pre))))
      (exitFailure tagOpen tagClose content array children) (Parsed none pre) := by
  rw [exitFailure]
  refine (Owns.freeSome (tagOpen.map Prod.fst) _).bind fun _ own hown => ?_
  subst hown
  refine (Owns.freeSome (tagClose.map Prod.fst) _).bind fun _ own hown => ?_
  subst hown
  refine (Owns.freeSome (content.map Prod.fst) _).bind fun _ own hown => ?_
  subst hown
  refine (owns_xmlNodesFree children _).bind fun _ own hown => ?_
  subst hown
  refine (Owns.free array pre).bind fun _ own hown => ?_
  subst hown
  exact .pure ⟨rfl, .refl _⟩

theorem owns_nodeCreation (name : XmlString) (content : Option XmlString) (array : Nat)
    (children : List MemNode) (p : List UInt8) (pre : List Nat) :
    Owns (name.1 :: (stringBlocks content ++ (blocksAll children ++ array :: pre)))
      (nodeCreation name content array children p)
      (Parsed (some (.node name.2 (content.map Prod.snd) (eraseAll children), p)) pre) := by
  rw [nodeCreation]
  refine (Owns.malloc _).bind fun addr own hown => ?_
  subst hown
  refine .pure ⟨rfl, ?_⟩
  show List.Perm _ (MemNode.blocks _ ++ pre)
  rw [MemNode.blocks, List.cons_append, List.append_assoc, List.append_assoc]
  refine (List.Perm.swap _ _ _).trans (.cons _ ?_)
  show List.Perm (addr :: (_ ++ (_ ++ array :: pre))) _
  rw [← List.append_assoc, ← List.append_assoc]
  exact List.perm_middle.symm.trans (.append_left _ (.swap _ _ _))

/-- What is between the tags has its blocks. -/
def Body.blocks (body : Body) : List Nat :=
  stringBlocks body.content ++ (blocksAll body.children ++ [body.array])

section Node

variable {parseNode : List UInt8 → Prog (Option (MemNode × List UInt8))}
  {parse : List UInt8 → Option (XmlNode × List UInt8)}
  (hnode : ∀ q pre, Owns pre (parseNode q) (Parsed (parse q) pre))

include hnode

theorem owns_xmlParseChildren (fuel : Nat) : ∀ (array : Nat) (children : List MemNode)
    (p : List UInt8) (pre : List Nat),
    Owns (array :: (blocksAll children ++ pre))
      (xmlParseChildren parseNode fuel array children p) fun body own =>
        body.content = none ∧ own.Perm (body.array :: (blocksAll body.children ++ pre)) ∧
        body.rest.map (fun rest => (eraseAll body.children, rest)) =
          (WowProxy.xmlParseChildren parse fuel p).map fun parsed =>
            (eraseAll children ++ parsed.1, parsed.2) := by
  induction fuel with
  | zero => exact fun array children p pre => .pure ⟨rfl, .refl _, rfl⟩
  | succ fuel ih =>
    intro array children p pre
    rw [xmlParseChildren, WowProxy.xmlParseChildren]
    split
    · refine .pure ⟨rfl, .refl _, ?_⟩
      rw [Option.map_some, Option.map_some, List.append_nil]
    · refine (hnode p (array :: (blocksAll children ++ pre))).bind fun r own hr => ?_
      obtain ⟨hparsed, hown⟩ := hr
      cases r with
      | none =>
        rw [← hparsed]
        exact Owns.perm (.pure ⟨rfl, .refl _, rfl⟩) hown
      | some parsed =>
        obtain ⟨child, p⟩ := parsed
        rw [← hparsed]
        have hown' : own.Perm (array :: (child.blocks ++ (blocksAll children ++ pre))) :=
          hown.trans List.perm_middle
        refine ((Owns.realloc array _).perm hown').bind fun array own hown => ?_
        subst hown
        have hgrow : (array :: (child.blocks ++ (blocksAll children ++ pre))).Perm
            (array :: (blocksAll (children ++ [child]) ++ pre)) := by
          rw [blocksAll_append, blocksAll, blocksAll, List.append_nil, ← List.append_assoc]
          exact .cons _ (.append_right _ List.perm_append_comm)
        refine ((ih array (children ++ [child]) p pre).perm hgrow).weaken fun body own hbody => ?_
        obtain ⟨hcontent, hblocks, hrest⟩ := hbody
        refine ⟨hcontent, hblocks, ?_⟩
        rw [hrest, Option.map_some, Option.bind_some, Option.map_map]
        refine congrArg (Option.map · _) (funext fun parsed => ?_)
        show (eraseAll (children ++ [child]) ++ parsed.1, parsed.2) = _
        rw [eraseAll_append, List.append_assoc]
        rfl

theorem owns_xmlParseBody (array : Nat) (p : List UInt8) (pre : List Nat) :
    Owns (array :: pre) (xmlParseBody parseNode array p) fun body own =>
      own.Perm (body.blocks ++ pre) ∧
      body.rest.map (fun rest =>
        ((body.content.map Prod.snd, eraseAll body.children), rest)) =
          WowProxy.xmlParseBody parse p := by
  rw [xmlParseBody, WowProxy.xmlParseBody]
  split
  · refine (owns_newString (xmlParseContent p) (array :: pre)).bind fun r own hr => ?_
    obtain ⟨hcontent, rfl⟩ := hr
    cases r with
    | none =>
      rw [← hcontent]
      exact .pure ⟨.refl _, rfl⟩
    | some content =>
      rw [← hcontent]
      exact .pure ⟨.refl _, rfl⟩
  · refine (owns_xmlParseChildren hnode (p.length + 1) array [] p pre).weaken
      fun body own hbody => ?_
    obtain ⟨hcontent, hblocks, hrest⟩ := hbody
    refine ⟨hblocks.trans ?_, ?_⟩
    · rw [Body.blocks, hcontent]
      show List.Perm _ (blocksAll body.children ++ [body.array] ++ pre)
      rw [List.append_assoc]
      exact List.perm_middle.symm
    · have hmapped := congrArg (Option.map fun parsed : List XmlNode × List UInt8 =>
        (((none : Option (List UInt8)), parsed.1), parsed.2)) hrest
      rw [Option.map_map, Option.map_map] at hmapped
      rw [hcontent]
      exact hmapped

end Node

/-- The close tag belongs to the open tag, or the node is given up. -/
theorem owns_closeNode (tagOpen : XmlString) (body : Body) (pre : List Nat) :
    Owns (tagOpen.1 :: (body.blocks ++ pre)) (closeNode tagOpen body)
      (Parsed (body.rest.bind fun p => (xmlParseTagClose p).bind fun tagClose =>
        if xmlStringEquals tagOpen.2 tagClose.1 then
          some (.node tagOpen.2 (body.content.map Prod.snd) (eraseAll body.children),
            tagClose.2)
        else none) pre) := by
  have hblocks : body.blocks ++ pre = stringBlocks body.content ++
      (blocksAll body.children ++ body.array :: pre) := by
    rw [Body.blocks, List.append_assoc, List.append_assoc]
    rfl
  rw [closeNode, hblocks]
  cases hrest : body.rest with
  | none => exact owns_exitFailure (some tagOpen) none body.content body.array body.children pre
  | some p =>
    refine (owns_newString (xmlParseTagClose p) _).bind fun r own hr => ?_
    obtain ⟨hclose, rfl⟩ := hr
    rw [Option.bind_some, ← hclose]
    cases r with
    | none => exact owns_exitFailure (some tagOpen) none body.content body.array body.children pre
    | some parsed =>
      obtain ⟨tagClose, p⟩ := parsed
      dsimp only [Option.map_some, Option.bind_some]
      split
      · refine (Owns.free tagClose.1 _).bind fun _ own hown => ?_
        subst hown
        exact owns_nodeCreation tagOpen body.content body.array body.children p pre
      · exact (owns_exitFailure (some tagOpen) (some tagClose) body.content body.array
          body.children pre).perm (.swap _ _ _)

/-- A node is parsed as the parser parses it, and nothing is allocated but its blocks. -/
theorem owns_xmlParseNode (fuel : Nat) : ∀ (p : List UInt8) (pre : List Nat),
    Owns pre (xmlParseNode fuel p) (Parsed (WowProxy.xmlParseNode fuel p) pre) := by
  induction fuel with
  | zero => exact fun p pre => .pure ⟨rfl, .refl _⟩
  | succ fuel ih =>
    intro p pre
    rw [xmlParseNode, WowProxy.xmlParseNode]
    refine (Owns.malloc pre).bind fun array own hown => ?_
    subst hown
    refine (owns_newString (xmlParseTagOpen p) (array :: pre)).bind fun r own hr => ?_
    obtain ⟨hopen, rfl⟩ := hr
    rw [← hopen]
    cases r with
    | none => exact owns_exitFailure none none none array [] pre
    | some parsed =>
      obtain ⟨tagOpen, p⟩ := parsed
      dsimp only [Option.map_some, Option.bind_some]
      split
      · exact owns_nodeCreation (tagOpen.1, tagOpen.2.dropLast) none array [] p pre
      · have hperm : (tagOpen.1 :: array :: pre).Perm (array :: (tagOpen.1 :: pre)) :=
          .swap _ _ _
        refine ((owns_xmlParseBody ih array p (tagOpen.1 :: pre)).perm hperm).bind
          fun body own hbody => ?_
        obtain ⟨hown, hrest⟩ := hbody
        have hown' : own.Perm (tagOpen.1 :: (body.blocks ++ pre)) :=
          hown.trans List.perm_middle
        rw [← hrest, Option.bind_map]
        exact (owns_closeNode tagOpen body pre).perm hown'

/-! ## Documents -/

/-- What `xml_parse_document` gives back and leaves allocated. -/
def ParsedDocument (expected : Option XmlNode) (pre : List Nat) (document : Option MemDocument)
    (own : List Nat) : Prop :=
  document.map (fun document => document.root.erase) = expected ∧
    own.Perm ((document.map MemDocument.blocks).getD [] ++ pre)

theorem owns_xmlParseDocument (buffer : List UInt8) (pre : List Nat) :
    Owns pre (xmlParseDocument buffer)
      (ParsedDocument (WowProxy.xmlParseDocument buffer) pre) := by
  rw [xmlParseDocument, WowProxy.xmlParseDocument]
  split
  · exact .pure ⟨rfl, .refl _⟩
  · refine (owns_xmlParseNode buffer.length buffer pre).bind fun r own hr => ?_
    obtain ⟨hparsed, hown⟩ := hr
    rw [← hparsed]
    cases r with
    | none => exact Owns.perm (.pure ⟨rfl, .refl _⟩) hown
    | some parsed =>
      refine ((Owns.malloc _).perm hown).bind fun addr own hown => ?_
      subst hown
      refine .pure ⟨rfl, ?_⟩
      show List.Perm _ (MemDocument.blocks ⟨addr, parsed.1⟩ ++ pre)
      rw [MemDocument.blocks, List.append_assoc]
      exact List.perm_middle.symm

/-- **The parser leaks nothing and frees nothing twice: on every buffer it allocates the
blocks of the tree it returns, or nothing if it returns none, and `xml_document_free` frees
every one of them.** -/
theorem xmlDocumentFree_xmlParseDocument (buffer : List UInt8) (m : Mem) :
    ∃ document m₁, xmlParseDocument buffer m = some (document, m₁) ∧
      document.map (fun document => document.root.erase) = WowProxy.xmlParseDocument buffer ∧
      m₁.live.Perm ((document.map MemDocument.blocks).getD [] ++ m.live) ∧
      ∀ d, document = some d →
        ∃ m₂, xmlDocumentFree d m₁ = some ((), m₂) ∧ m₂.live.Perm m.live := by
  obtain ⟨document, m₁, own, hparse, hm₁, herase, hown⟩ :=
    owns_xmlParseDocument buffer [] m m.live (.refl _)
  have hlive : m₁.live.Perm ((document.map MemDocument.blocks).getD [] ++ m.live) := by
    rw [List.append_nil] at hown
    exact hm₁.trans (hown.append_right _)
  refine ⟨document, m₁, hparse, herase, hlive, fun d hd => ?_⟩
  subst hd
  obtain ⟨_, m₂, own, hfree, hm₂, rfl⟩ := owns_xmlDocumentFree d [] m₁ m.live (by
    rwa [List.append_nil])
  exact ⟨m₂, hfree, hm₂⟩

/-! ## `get_soap_content` -/

/-- The node that `get_soap_content` reads in a tree. -/
def soapNodeIn (root : XmlNode) (isOK : Bool) : Option XmlNode :=
  root.children[0]?.bind fun bodyNode =>
    bodyNode.children[0]?.bind fun node =>
      if isOK then node.children[0]? else node.children[2]?.or node.children[1]?

/-- What `get_soap_content` copies to `content`, with its length. -/
def copyContent (isOK : Bool) (node : XmlNode) : Option (Nat × List UInt8) :=
  if soapNodeNamed isOK node.name then
    let text := node.content.getD []
    (memcpy (maxBufSize * 4) text text.length).map fun content => (text.length, content)
  else some (0, [])

/-- `get_soap_content` -/
def getSoapContent (soap : List UInt8) (isOK : Bool) : Prog (Nat × List UInt8) :=
  if soap.length ≤ maxBufSize then do
    match ← xmlParseDocument soap with
    | none => return (sizeT (-1), [])
    | some document =>
      match soapNodeIn document.root.erase isOK with
      -- The document stays allocated.
      | none => return (sizeT (-1), [])
      | some node => do
        let szNodeName ← malloc
        let content ← need (copyContent isOK node)
        free szNodeName
        xmlDocumentFree document
        return content
  else failure

/-- The text of the node is copied as without the blocks. -/
theorem getSoapContent_eq_copyContent {soap : List UInt8} {isOK : Bool} {root node : XmlNode}
    (hlength : soap.length ≤ maxBufSize) (hroot : WowProxy.xmlParseDocument soap = some root)
    (hnode : soapNodeIn root isOK = some node) :
    WowProxy.getSoapContent soap isOK = copyContent isOK node := by
  have hsoap : soapNode soap isOK = some node := by
    rw [soapNode, hroot]
    exact hnode
  rw [WowProxy.getSoapContent, if_pos hlength, hsoap, copyContent]

/-- How many blocks `get_soap_content` leaves allocated: those of the document, if the node
is missing in it. -/
def leftBlocks (soap : List UInt8) (isOK : Bool) : Nat :=
  match WowProxy.xmlParseDocument soap with
  | none => 0
  | some root => if (soapNodeIn root isOK).isNone then documentBlocks root else 0

theorem leftBlocks_pos_iff (soap : List UInt8) (isOK : Bool) :
    0 < leftBlocks soap isOK ↔
      (WowProxy.xmlParseDocument soap).isSome ∧ soapNode soap isOK = none := by
  rw [leftBlocks, soapNode]
  cases WowProxy.xmlParseDocument soap with
  | none => simp
  | some root =>
    dsimp only
    rw [Option.bind_some]
    change 0 < (if (soapNodeIn root isOK).isNone then documentBlocks root else 0) ↔
      true ∧ soapNodeIn root isOK = none
    cases soapNodeIn root isOK with
    | none => simp [documentBlocks]
    | some node => simp

/-- What `get_soap_content` leaves allocated. -/
def Leaves (soap : List UInt8) (isOK : Bool) (pre : List Nat) (content : Nat × List UInt8)
    (own : List Nat) : Prop :=
  WowProxy.getSoapContent soap isOK = some content ∧ ∃ left, own.Perm (left ++ pre) ∧
    left.length = leftBlocks soap isOK

theorem owns_getSoapContent {soap : List UInt8} (isOK : Bool) (hlength : soap.length ≤ maxBufSize)
    (pre : List Nat) : Owns pre (getSoapContent soap isOK) (Leaves soap isOK pre) := by
  rw [getSoapContent, if_pos hlength]
  refine (owns_xmlParseDocument soap pre).bind fun r own hr => ?_
  obtain ⟨hroot, hown⟩ := hr
  cases r with
  | none =>
    have hroot' : WowProxy.xmlParseDocument soap = none := hroot.symm
    have hsoap : soapNode soap isOK = none := by rw [soapNode, hroot']; rfl
    refine Owns.perm (.pure ⟨?_, [], .refl _, ?_⟩) hown
    · rw [WowProxy.getSoapContent, if_pos hlength, hsoap]
    · rw [leftBlocks, hroot']
      rfl
  | some document =>
    have hroot' : WowProxy.xmlParseDocument soap = some document.root.erase := hroot.symm
    have hsoap : soapNode soap isOK = soapNodeIn document.root.erase isOK := by
      rw [soapNode, hroot']
      rfl
    cases hnode : soapNodeIn document.root.erase isOK with
    | none =>
      rw [hnode] at hsoap
      dsimp only
      rw [hnode]
      refine Owns.perm (.pure ⟨?_, document.blocks, .refl _, ?_⟩) hown
      · rw [WowProxy.getSoapContent, if_pos hlength, hsoap]
      · rw [leftBlocks, hroot', document.length_blocks]
        dsimp only
        rw [hnode]
        rfl
    | some node =>
      rw [hnode] at hsoap
      have heq := getSoapContent_eq_copyContent hlength hroot' hnode
      obtain ⟨content, hcontent⟩ := Option.isSome_iff_exists.mp
        ((getSoapContent_isSome isOK).mpr hlength)
      dsimp only
      rw [hnode]
      refine ((Owns.malloc _).perm hown).bind fun szNodeName own hown => ?_
      subst hown
      refine (Owns.need (heq.symm.trans hcontent)).bind fun r own hr => ?_
      obtain ⟨rfl, rfl⟩ := hr
      refine (Owns.free szNodeName _).bind fun _ own hown => ?_
      subst hown
      refine (owns_xmlDocumentFree document pre).bind fun _ own hown => ?_
      subst hown
      refine .pure ⟨hcontent, [], .refl _, ?_⟩
      rw [leftBlocks, hroot']
      dsimp only
      rw [hnode]
      rfl

/-- **`get_soap_content` leaves its memory as it was, except for a document that has been
parsed and in which the node is missing: all of its blocks stay allocated.** -/
theorem getSoapContent_leaks_iff (soap : List UInt8) (isOK : Bool) (m : Mem) :
    (getSoapContent soap isOK m).map Prod.fst = WowProxy.getSoapContent soap isOK ∧
      ∀ content m', getSoapContent soap isOK m = some (content, m') →
        (¬ m'.live.Perm m.live ↔
          (WowProxy.xmlParseDocument soap).isSome ∧ soapNode soap isOK = none) ∧
        ∃ left, m'.live.Perm (left ++ m.live) ∧ left.length = leftBlocks soap isOK := by
  by_cases hlength : soap.length ≤ maxBufSize
  · obtain ⟨content, m₁, own, hrun, hm₁, hcontent, left, hown, hleft⟩ :=
      owns_getSoapContent isOK hlength [] m m.live (.refl _)
    rw [List.append_nil] at hown
    have hlive : m₁.live.Perm (left ++ m.live) := hm₁.trans (hown.append_right _)
    refine ⟨by rw [hrun, hcontent]; rfl, fun content' m' hrun' => ?_⟩
    obtain ⟨rfl, rfl⟩ := Prod.mk.inj (Option.some.inj (hrun.symm.trans hrun'))
    refine ⟨?_, left, hlive, hleft⟩
    rw [← leftBlocks_pos_iff, ← hleft]
    constructor
    · intro hchanged
      refine List.length_pos_iff.mpr ?_
      rintro rfl
      exact hchanged hlive
    · intro hpos hperm
      have hlengths := (hlive.symm.trans hperm).length_eq
      rw [List.length_append] at hlengths
      omega
  · have hfault : getSoapContent soap isOK m = none := by
      rw [getSoapContent, if_neg hlength]
      rfl
    refine ⟨by rw [hfault, WowProxy.getSoapContent, if_neg hlength]; rfl, fun content m' h => ?_⟩
    rw [hfault] at h
    exact absurd h (by simp)

end WowProxy.XmlMem
