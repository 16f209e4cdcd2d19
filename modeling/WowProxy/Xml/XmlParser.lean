/-
  Xml/XmlParser.lean --- the parser of `xml/xml.c`.

  A parser is kept as the bytes from `parser->position` to the end of the buffer.
  There is always one of them, since `xml_parser_consume` stops at the last byte,
  and what `xml_parse_node` leaves is where its caller goes on.  In a tag and in
  a text the loops ask for the next byte that is no white space but move by one
  byte of any kind.  The bytes that matter are `<` (60), `>` (62) and `/` (47).
-/
import WowProxy.Lib.Text
import WowProxy.Threadpool.Message

set_option autoImplicit false

namespace WowProxy

open Lib.Text

/-- `struct xml_node`; the content is missing where the node holds no text. -/
inductive XmlNode where
  | node (name : List UInt8) (content : Option (List UInt8)) (children : List XmlNode)

namespace XmlNode

/-- `xml_node_name`. -/
def name : XmlNode → List UInt8
  | node name _ _ => name

/-- `xml_node_content`. -/
def content : XmlNode → Option (List UInt8)
  | node _ content _ => content

/-- The array `children`; `xml_node_child(node, i)` is its entry `i`. -/
def children : XmlNode → List XmlNode
  | node _ _ children => children

end XmlNode

/-! ## The primitives -/

/-- `xml_parser_peek`: the `n`-th byte ahead that is no white space, and 0 where
there is none. -/
def xmlParserPeek : List UInt8 → Nat → UInt8
  | [], _ => 0
  | b :: rest, n =>
    if isSpace b then xmlParserPeek rest n
    else
      match n with
      | 0 => b
      | n + 1 => xmlParserPeek rest n

/-- `xml_parser_consume`: at least the last byte stays. -/
def xmlParserConsume (p : List UInt8) (n : Nat) : List UInt8 := p.drop (min n (p.length - 1))

/-- `xml_skip_whitespace`. -/
def xmlSkipWhitespace : List UInt8 → List UInt8
  | b :: c :: rest => if isSpace b then xmlSkipWhitespace (c :: rest) else b :: c :: rest
  | p => p

/-- The loops of `xml_parse_tag_end` and `xml_parse_content`: `length`, counted
up to the end of the buffer, and where the parser is then.  `left` is
`parser->length - (start + length)`. -/
def xmlScan (stop : UInt8 → Bool) : Nat → List UInt8 → Nat → Nat × List UInt8
  | 0, p, length => (length, p)
  | left + 1, p, length =>
    if stop (xmlParserPeek p 0) then (length, p)
    else xmlScan stop left (xmlParserConsume p 1) (length + 1)

/-- `xml_string_equals`: only the first `min_length` bytes are compared. -/
def xmlStringEquals (a b : List UInt8) : Bool :=
  a.take (min a.length b.length) == b.take (min a.length b.length)

/-! ## Tags and texts -/

/-- `xml_parse_tag_end`. -/
def xmlParseTagEnd (p : List UInt8) : Option (List UInt8 × List UInt8) :=
  let (length, q) := xmlScan (fun current => current == 62 || isSpace current) p.length p 0
  if xmlParserPeek q 0 ≠ 62 then none
  else some (p.take length, xmlParserConsume q 1)

/-- `xml_parse_tag_open`. -/
def xmlParseTagOpen (p : List UInt8) : Option (List UInt8 × List UInt8) :=
  let q := xmlSkipWhitespace p
  if xmlParserPeek q 0 ≠ 60 then none
  else xmlParseTagEnd (xmlParserConsume q 1)

/-- `xml_parse_tag_close`. -/
def xmlParseTagClose (p : List UInt8) : Option (List UInt8 × List UInt8) :=
  let q := xmlSkipWhitespace p
  if xmlParserPeek q 0 ≠ 60 ∨ xmlParserPeek q 1 ≠ 47 then none
  else xmlParseTagEnd (xmlParserConsume q 2)

/-- `xml_parse_content`. -/
def xmlParseContent (p : List UInt8) : Option (List UInt8 × List UInt8) :=
  let start := xmlSkipWhitespace p
  let (length, q) := xmlScan (fun current => current == 60) start.length start 0
  if xmlParserPeek q 0 ≠ 60 then none
  else some ((start.take length).rdropWhile isSpace, q)

/-! ## Nodes -/

/-- The loop of `xml_parse_node` over the children. -/
def xmlParseChildren (parseNode : List UInt8 → Option (XmlNode × List UInt8)) :
    Nat → List UInt8 → Option (List XmlNode × List UInt8)
  | 0, _ => none
  | fuel + 1, p =>
    if xmlParserPeek p 1 = 47 then some ([], p)
    else
      (parseNode p).bind fun child =>
        (xmlParseChildren parseNode fuel child.2).map fun rest =>
          (child.1 :: rest.1, rest.2)

/-- What stands between the tags: a text, or children. -/
def xmlParseBody (parseNode : List UInt8 → Option (XmlNode × List UInt8)) (p : List UInt8) :
    Option ((Option (List UInt8) × List XmlNode) × List UInt8) :=
  if xmlParserPeek p 0 ≠ 60 then
    (xmlParseContent p).map fun content => ((some content.1, []), content.2)
  else
    (xmlParseChildren parseNode (p.length + 1) p).map fun children =>
      ((none, children.1), children.2)

/-- `xml_parse_node`.  Every tag takes a byte, so the fuel `xmlParseDocument`
gives is never used up; see `xmlParseNode_fuel`. -/
def xmlParseNode : Nat → List UInt8 → Option (XmlNode × List UInt8)
  | 0, _ => none
  | fuel + 1, p =>
    (xmlParseTagOpen p).bind fun tagOpen =>
      -- a tag that ends with `/` closes itself
      if tagOpen.1.getLast? = some 47 then
        some (.node tagOpen.1.dropLast none [], tagOpen.2)
      else
        (xmlParseBody (xmlParseNode fuel) tagOpen.2).bind fun body =>
          (xmlParseTagClose body.2).bind fun tagClose =>
            if xmlStringEquals tagOpen.1 tagClose.1 then
              some (.node tagOpen.1 body.1.1 body.1.2, tagClose.2)
            else none

/-- `xml_parse_document`: the root of the document. -/
def xmlParseDocument (buffer : List UInt8) : Option XmlNode :=
  if buffer.length = 0 then none
  else (xmlParseNode buffer.length buffer).map fun root => root.1

/-! ## Peeking and consuming -/

theorem isSpace_lt : isSpace 60 = false := rfl

theorem isSpace_gt : isSpace 62 = false := rfl

theorem isSpace_slash : isSpace 47 = false := rfl

@[simp] theorem xmlParserPeek_space {b : UInt8} (hb : isSpace b = true) (rest : List UInt8)
    (n : Nat) : xmlParserPeek (b :: rest) n = xmlParserPeek rest n := by
  simp [xmlParserPeek, hb]

@[simp] theorem xmlParserPeek_zero {b : UInt8} (hb : isSpace b = false) (rest : List UInt8) :
    xmlParserPeek (b :: rest) 0 = b := by
  simp [xmlParserPeek, hb]

@[simp] theorem xmlParserPeek_succ {b : UInt8} (hb : isSpace b = false) (rest : List UInt8)
    (n : Nat) : xmlParserPeek (b :: rest) (n + 1) = xmlParserPeek rest n := by
  simp [xmlParserPeek, hb]

/-- White space in front changes nothing that is peeked. -/
theorem xmlParserPeek_blank {blank : List UInt8} (hblank : ∀ b ∈ blank, isSpace b = true)
    (rest : List UInt8) (n : Nat) :
    xmlParserPeek (blank ++ rest) n = xmlParserPeek rest n := by
  induction blank with
  | nil => rfl
  | cons b blank ih =>
    rw [List.cons_append, xmlParserPeek_space (hblank b (by simp))]
    exact ih fun c hc => hblank c (by simp [hc])

/-- A text that is not all white space shows one of its own solid bytes. -/
theorem xmlParserPeek_mem {s : List UInt8} (hs : ∃ b ∈ s, isSpace b = false)
    (rest : List UInt8) :
    xmlParserPeek (s ++ rest) 0 ∈ s ∧ isSpace (xmlParserPeek (s ++ rest) 0) = false := by
  induction s with
  | nil =>
    obtain ⟨b, hb, -⟩ := hs
    cases hb
  | cons b s ih =>
    cases hb : isSpace b with
    | false => simp [hb]
    | true =>
      obtain ⟨c, hc, hsolid⟩ := hs
      have hcs : c ∈ s := by
        rcases List.mem_cons.mp hc with rfl | hcs
        · rw [hb] at hsolid
          cases hsolid
        · exact hcs
      rw [List.cons_append, xmlParserPeek_space hb]
      obtain ⟨hmem, hpeek⟩ := ih ⟨c, hcs, hsolid⟩
      exact ⟨List.mem_cons_of_mem b hmem, hpeek⟩

/-- In front of anything, consuming takes what it is told to. -/
theorem xmlParserConsume_append (s : List UInt8) {rest : List UInt8} (hrest : rest ≠ []) :
    xmlParserConsume (s ++ rest) s.length = rest := by
  have hpos := List.length_pos_iff.mpr hrest
  unfold xmlParserConsume
  rw [Nat.min_eq_left (by simp; omega), List.drop_left]

theorem xmlParserConsume_one (b : UInt8) {rest : List UInt8} (hrest : rest ≠ []) :
    xmlParserConsume (b :: rest) 1 = rest :=
  xmlParserConsume_append [b] hrest

/-- White space is skipped up to a byte that is none. -/
theorem xmlSkipWhitespace_blank {blank : List UInt8}
    (hblank : ∀ b ∈ blank, isSpace b = true) {c : UInt8} (hc : isSpace c = false)
    (rest : List UInt8) : xmlSkipWhitespace (blank ++ c :: rest) = c :: rest := by
  induction blank with
  | nil =>
    cases rest with
    | nil => rfl
    | cons d rest => simp [xmlSkipWhitespace, hc]
  | cons b blank ih =>
    have htail := ih fun d hd => hblank d (by simp [hd])
    have hb := hblank b (by simp)
    cases blank with
    | nil => simpa [xmlSkipWhitespace, hb] using htail
    | cons d blank => simpa [xmlSkipWhitespace, hb] using htail

/-! ## What is left

Every function hands out a part of what it was given. -/

theorem xmlSkipWhitespace_suffix : ∀ p : List UInt8, xmlSkipWhitespace p <:+ p
  | [] => List.suffix_refl _
  | [_] => List.suffix_refl _
  | b :: c :: rest => by
    unfold xmlSkipWhitespace
    split
    · exact (xmlSkipWhitespace_suffix (c :: rest)).trans (List.suffix_cons b _)
    · exact List.suffix_refl _

theorem xmlScan_suffix (stop : UInt8 → Bool) :
    ∀ (left : Nat) (p : List UInt8) (n : Nat), (xmlScan stop left p n).2 <:+ p
  | 0, _, _ => List.suffix_refl _
  | left + 1, p, n => by
    unfold xmlScan
    split
    · exact List.suffix_refl _
    · exact (xmlScan_suffix stop left _ _).trans (List.drop_suffix _ p)

theorem xmlParseTagEnd_suffix {p : List UInt8} {tag : List UInt8 × List UInt8}
    (h : xmlParseTagEnd p = some tag) : tag.2 <:+ p := by
  simp only [xmlParseTagEnd, ite_eq_iff, reduceCtorEq, and_false, false_or] at h
  rw [← Option.some.inj h.2]
  exact (List.drop_suffix _ _).trans (xmlScan_suffix _ _ _ _)

theorem xmlParseTagOpen_suffix {p : List UInt8} {tag : List UInt8 × List UInt8}
    (h : xmlParseTagOpen p = some tag) : tag.2 <:+ p := by
  simp only [xmlParseTagOpen, ite_eq_iff, reduceCtorEq, and_false, false_or] at h
  exact ((xmlParseTagEnd_suffix h.2).trans (List.drop_suffix _ _)).trans
    (xmlSkipWhitespace_suffix p)

theorem xmlParseTagClose_suffix {p : List UInt8} {tag : List UInt8 × List UInt8}
    (h : xmlParseTagClose p = some tag) : tag.2 <:+ p := by
  simp only [xmlParseTagClose, ite_eq_iff, reduceCtorEq, and_false, false_or] at h
  exact ((xmlParseTagEnd_suffix h.2).trans (List.drop_suffix _ _)).trans
    (xmlSkipWhitespace_suffix p)

theorem xmlParseContent_parts {p : List UInt8} {content : List UInt8 × List UInt8}
    (h : xmlParseContent p = some content) : content.1 <:+: p ∧ content.2 <:+ p := by
  simp only [xmlParseContent, ite_eq_iff, reduceCtorEq, and_false, false_or] at h
  rw [← Option.some.inj h.2]
  have hstart := xmlSkipWhitespace_suffix p
  exact ⟨((List.rdropWhile_prefix _ _).trans (List.take_prefix _ _)).isInfix.trans hstart.isInfix,
    (xmlScan_suffix _ _ _ _).trans hstart⟩

/-! ## Fuel

Every parse of a node moves the parser, so a depth of the length of the buffer
is never reached, nor as many turns of the loop over the children. -/

/-- At the last byte a loop stays where it is. -/
theorem xmlScan_last (stop : UInt8 → Bool) (b : UInt8) :
    ∀ left n : Nat, (xmlScan stop left [b] n).2 = [b]
  | 0, _ => rfl
  | left + 1, n => by
    unfold xmlScan
    split
    · rfl
    · exact xmlScan_last stop b left (n + 1)

/-- An opening tag takes at least a byte: its `<` is not its `>`. -/
theorem xmlParseTagOpen_length_lt {p : List UInt8} {tag : List UInt8 × List UInt8}
    (h : xmlParseTagOpen p = some tag) : tag.2.length < p.length := by
  have hskip := (xmlSkipWhitespace_suffix p).length_le
  simp only [xmlParseTagOpen, ite_eq_iff, reduceCtorEq, and_false, false_or, not_not] at h
  obtain ⟨hopen, h⟩ := h
  generalize xmlSkipWhitespace p = q at hskip hopen h
  rcases Nat.lt_or_ge 1 q.length with hlong | hshort
  · have hend := (xmlParseTagEnd_suffix h).length_le
    rw [xmlParserConsume, List.length_drop] at hend
    omega
  · cases q with
    | nil => exact absurd hopen (by decide)
    | cons b q' =>
      obtain rfl : q' = [] := List.eq_nil_of_length_eq_zero (by simpa using hshort)
      have hlast : xmlParserPeek [b] 0 = 60 := hopen
      have hone : xmlParserConsume [b] 1 = [b] := rfl
      simp only [hone, xmlParseTagEnd, xmlScan_last, hlast] at h
      cases h

section Children

variable {parseNode parseNode' : List UInt8 → Option (XmlNode × List UInt8)}

theorem xmlParseChildren_length_le
    (hnode : ∀ q r, parseNode q = some r → r.2.length < q.length) :
    ∀ (fuel : Nat) (p : List UInt8) (children : List XmlNode × List UInt8),
      xmlParseChildren parseNode fuel p = some children → children.2.length ≤ p.length
  | 0, _, _, h => by cases h
  | fuel + 1, p, children, h => by
    unfold xmlParseChildren at h
    split at h
    · rw [← Option.some.inj h]
    · obtain ⟨child, hchild, h⟩ := Option.bind_eq_some_iff.mp h
      obtain ⟨rest, hrest, rfl⟩ := Option.map_eq_some_iff.mp h
      have hfirst := hnode p child hchild
      have hothers := xmlParseChildren_length_le hnode fuel child.2 rest hrest
      exact hothers.trans hfirst.le

/-- The loop over the children needs a turn for each byte, and one more, and
parses nodes only in what is left. -/
theorem xmlParseChildren_fuel
    (hnode : ∀ q r, parseNode q = some r → r.2.length < q.length) :
    ∀ (fuel fuel' : Nat) (p : List UInt8), p.length < fuel → p.length < fuel' →
      (∀ q, q.length ≤ p.length → parseNode q = parseNode' q) →
      xmlParseChildren parseNode fuel p = xmlParseChildren parseNode' fuel' p
  | fuel + 1, fuel' + 1, p, hfuel, hfuel', hsame => by
    unfold xmlParseChildren
    split
    · rfl
    · rw [← hsame p (Nat.le_refl _)]
      cases hchild : parseNode p with
      | none => rfl
      | some child =>
        have hlt := hnode p child hchild
        have ih := xmlParseChildren_fuel hnode fuel fuel' child.2 (by omega) (by omega)
          fun q hq => hsame q (by omega)
        rw [Option.bind_some, Option.bind_some, ih]

end Children

theorem xmlParseBody_length_le {parseNode : List UInt8 → Option (XmlNode × List UInt8)}
    (hnode : ∀ q r, parseNode q = some r → r.2.length < q.length) {p : List UInt8}
    {body : (Option (List UInt8) × List XmlNode) × List UInt8}
    (h : xmlParseBody parseNode p = some body) : body.2.length ≤ p.length := by
  unfold xmlParseBody at h
  split at h
  · obtain ⟨content, hcontent, rfl⟩ := Option.map_eq_some_iff.mp h
    exact (xmlParseContent_parts hcontent).2.length_le
  · obtain ⟨children, hchildren, rfl⟩ := Option.map_eq_some_iff.mp h
    exact xmlParseChildren_length_le hnode _ _ _ hchildren

/-- A parsed node takes at least a byte. -/
theorem xmlParseNode_length_lt : ∀ (fuel : Nat) (p : List UInt8) (node : XmlNode × List UInt8),
    xmlParseNode fuel p = some node → node.2.length < p.length
  | 0, _, _, h => by cases h
  | fuel + 1, p, node, h => by
    unfold xmlParseNode at h
    obtain ⟨tagOpen, hopen, h⟩ := Option.bind_eq_some_iff.mp h
    have hlt := xmlParseTagOpen_length_lt hopen
    split at h
    · rw [← Option.some.inj h]
      exact hlt
    · obtain ⟨body, hbody, h⟩ := Option.bind_eq_some_iff.mp h
      obtain ⟨tagClose, hclose, h⟩ := Option.bind_eq_some_iff.mp h
      have hle := xmlParseBody_length_le (xmlParseNode_length_lt fuel) hbody
      have hle' := (xmlParseTagClose_suffix hclose).length_le
      split at h
      · rw [← Option.some.inj h]
        exact Nat.lt_of_le_of_lt (hle'.trans hle) hlt
      · cases h

/-- **Fuel is no bound of the parser.**  From the number of bytes on, more of it
changes nothing, on any input. -/
theorem xmlParseNode_fuel : ∀ (fuel fuel' : Nat) (p : List UInt8), p.length ≤ fuel →
    p.length ≤ fuel' → xmlParseNode fuel p = xmlParseNode fuel' p
  | 0, 0, _, _, _ => rfl
  | 0, fuel' + 1, p, h, _ => by
    rw [List.eq_nil_of_length_eq_zero (Nat.le_zero.mp h)]
    rfl
  | fuel + 1, 0, p, _, h => by
    rw [List.eq_nil_of_length_eq_zero (Nat.le_zero.mp h)]
    rfl
  | fuel + 1, fuel' + 1, p, h, h' => by
    unfold xmlParseNode
    cases hopen : xmlParseTagOpen p with
    | none => rfl
    | some tagOpen =>
      have hlt := xmlParseTagOpen_length_lt hopen
      have hbody : xmlParseBody (xmlParseNode fuel) tagOpen.2 =
          xmlParseBody (xmlParseNode fuel') tagOpen.2 := by
        unfold xmlParseBody
        rw [xmlParseChildren_fuel (xmlParseNode_length_lt fuel) _ _ tagOpen.2
          (Nat.lt_succ_self _) (Nat.lt_succ_self _)
          fun q hq => xmlParseNode_fuel fuel fuel' q (by omega) (by omega)]
      rw [Option.bind_some, Option.bind_some, hbody]

/-! ## What is kept -/

/-- All texts of a node stand in `buffer`. -/
inductive XmlNode.Within (buffer : List UInt8) : XmlNode → Prop where
  | node {name : List UInt8} {content : Option (List UInt8)} {children : List XmlNode} :
    content.getD [] <:+: buffer → (∀ child ∈ children, Within buffer child) →
    Within buffer (.node name content children)

theorem XmlNode.Within.content {buffer : List UInt8} {node : XmlNode} (h : node.Within buffer) :
    node.content.getD [] <:+: buffer := by
  cases h with
  | node hcontent _ => exact hcontent

theorem XmlNode.Within.child {buffer : List UInt8} {node child : XmlNode}
    (h : node.Within buffer) (hchild : child ∈ node.children) : child.Within buffer := by
  cases h with
  | node _ hchildren => exact hchildren child hchild

section Within

variable {buffer : List UInt8} {parseNode : List UInt8 → Option (XmlNode × List UInt8)}
  (hnode : ∀ q r, q <:+ buffer → parseNode q = some r → r.1.Within buffer ∧ r.2 <:+ buffer)

include hnode

theorem xmlParseChildren_within : ∀ (fuel : Nat) (p : List UInt8)
    (children : List XmlNode × List UInt8), p <:+ buffer →
      xmlParseChildren parseNode fuel p = some children →
      (∀ child ∈ children.1, child.Within buffer) ∧ children.2 <:+ buffer
  | 0, _, _, _, h => by cases h
  | fuel + 1, p, children, hp, h => by
    unfold xmlParseChildren at h
    split at h
    · rw [← Option.some.inj h]
      exact ⟨List.forall_mem_nil _, hp⟩
    · obtain ⟨child, hchild, h⟩ := Option.bind_eq_some_iff.mp h
      obtain ⟨rest, hrest, rfl⟩ := Option.map_eq_some_iff.mp h
      obtain ⟨hfirst, hbehind⟩ := hnode p child hp hchild
      obtain ⟨hothers, hend⟩ := xmlParseChildren_within fuel child.2 rest hbehind hrest
      exact ⟨List.forall_mem_cons.mpr ⟨hfirst, hothers⟩, hend⟩

theorem xmlParseBody_within {p : List UInt8}
    {body : (Option (List UInt8) × List XmlNode) × List UInt8} (hp : p <:+ buffer)
    (h : xmlParseBody parseNode p = some body) :
    (∀ name, (XmlNode.node name body.1.1 body.1.2).Within buffer) ∧ body.2 <:+ buffer := by
  unfold xmlParseBody at h
  split at h
  · obtain ⟨content, hcontent, rfl⟩ := Option.map_eq_some_iff.mp h
    obtain ⟨htext, hbehind⟩ := xmlParseContent_parts hcontent
    exact ⟨fun name => .node (htext.trans hp.isInfix) (List.forall_mem_nil _), hbehind.trans hp⟩
  · obtain ⟨children, hchildren, rfl⟩ := Option.map_eq_some_iff.mp h
    obtain ⟨hwithin, hbehind⟩ := xmlParseChildren_within hnode _ p children hp hchildren
    exact ⟨fun name => .node List.nil_infix hwithin, hbehind⟩

end Within

/-- The texts of a node stand in the bytes it was parsed from. -/
theorem xmlParseNode_within {buffer : List UInt8} : ∀ (fuel : Nat) (p : List UInt8)
    (node : XmlNode × List UInt8), p <:+ buffer → xmlParseNode fuel p = some node →
      node.1.Within buffer ∧ node.2 <:+ buffer
  | 0, _, _, _, h => by cases h
  | fuel + 1, p, node, hp, h => by
    unfold xmlParseNode at h
    obtain ⟨tagOpen, hopen, h⟩ := Option.bind_eq_some_iff.mp h
    have hinside := (xmlParseTagOpen_suffix hopen).trans hp
    split at h
    · rw [← Option.some.inj h]
      exact ⟨.node List.nil_infix (List.forall_mem_nil _), hinside⟩
    · obtain ⟨body, hbody, h⟩ := Option.bind_eq_some_iff.mp h
      obtain ⟨tagClose, hclose, h⟩ := Option.bind_eq_some_iff.mp h
      obtain ⟨hwithin, hbehind⟩ :=
        xmlParseBody_within (xmlParseNode_within fuel) hinside hbody
      split at h
      · rw [← Option.some.inj h]
        exact ⟨hwithin tagOpen.1, (xmlParseTagClose_suffix hclose).trans hbehind⟩
      · cases h

theorem xmlParseDocument_within {buffer : List UInt8} {root : XmlNode}
    (h : xmlParseDocument buffer = some root) : root.Within buffer := by
  unfold xmlParseDocument at h
  split at h
  · cases h
  · obtain ⟨parsed, hparsed, rfl⟩ := Option.map_eq_some_iff.mp h
    exact (xmlParseNode_within _ _ _ (List.suffix_refl _) hparsed).1

end WowProxy
