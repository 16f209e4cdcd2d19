/-
  Xml/XmlElement.lean --- well-formed documents, and that the parser of `xml/xml.c`
  finds their elements.

  `Element` is what a document means and `Element.bytes` one of the ways to write
  it: every tag keeps its attribute text and every place between two tags its
  white space.  `Element.xmlNode` is what the parser should make of it, and
  `xmlParseNode_element` that it does, whatever follows the element.
-/
import WowProxy.Xml.XmlParser

set_option autoImplicit false

namespace WowProxy

open Lib.Text

/-! ## Documents -/

/-- White space between two tags. -/
structure Blank where
  bytes : List UInt8
  isSpace_of_mem : ∀ b ∈ bytes, isSpace b = true

/-- The name of an element, without white space and without `<`, `>`, `/` and `?`,
and the rest of its opening tag, which does not end the tag, close the element or
end in white space. -/
structure Tag where
  name : List UInt8
  attributes : List UInt8
  name_ne_nil : name ≠ []
  name_plain : ∀ b ∈ name, isSpace b = false ∧ b ≠ 60 ∧ b ≠ 62 ∧ b ≠ 47 ∧ b ≠ 63
  attributes_open : 62 ∉ attributes
  attributes_end : ∀ b ∈ attributes.getLast?, isSpace b = false ∧ b ≠ 47

/-- A text between two tags. -/
structure Text where
  bytes : List UInt8
  no_tag : 60 ∉ bytes

mutual

/-- An element holds a text or other elements. -/
inductive Element where
  | text (tag : Tag) (text : Text)
  | nest (tag : Tag) (children : Children)

/-- Elements with white space in front of each and behind the last. -/
inductive Children where
  | nil (blank : Blank)
  | cons (blank : Blank) (child : Element) (rest : Children)

end

/-- `<name attributes>`. -/
def Tag.opening (tag : Tag) : List UInt8 := 60 :: (tag.name ++ tag.attributes ++ [62])

/-- `</name>`. -/
def Tag.closing (tag : Tag) : List UInt8 := 60 :: 47 :: (tag.name ++ [62])

/-- A text without the white space around it. -/
def Text.stripped (text : Text) : List UInt8 := strip isSpace text.bytes

mutual

/-- How an element is written. -/
def Element.bytes : Element → List UInt8
  | .text tag text => tag.opening ++ (text.bytes ++ tag.closing)
  | .nest tag children => tag.opening ++ (children.bytes ++ tag.closing)

def Children.bytes : Children → List UInt8
  | .nil blank => blank.bytes
  | .cons blank child rest => blank.bytes ++ (child.bytes ++ rest.bytes)

end

/-- The children in order. -/
def Children.toList : Children → List Element
  | .nil _ => []
  | .cons _ child rest => child :: rest.toList

namespace Element

/-- The tag of an element. -/
def tag : Element → Tag
  | text tag _ => tag
  | nest tag _ => tag

/-- The elements an element holds. -/
def children : Element → List Element
  | text _ _ => []
  | nest _ children => children.toList

/-- The text an element holds, where it is not blank. -/
def content : Element → Option (List UInt8)
  | text _ t => if t.stripped = [] then none else some t.stripped
  | nest _ _ => none

end Element

mutual

/-- The node of an element.  Its name is all of the opening tag. -/
def Element.xmlNode : Element → XmlNode
  | .text tag text =>
    .node (tag.name ++ tag.attributes)
      (if text.stripped = [] then none else some text.stripped) []
  | .nest tag children => .node (tag.name ++ tag.attributes) none children.xmlNodes

def Children.xmlNodes : Children → List XmlNode
  | .nil _ => []
  | .cons _ child rest => child.xmlNode :: rest.xmlNodes

end

theorem Children.xmlNodes_eq : ∀ children : Children,
    children.xmlNodes = children.toList.map Element.xmlNode
  | .nil _ => rfl
  | .cons _ child rest => by
    rw [Children.xmlNodes, Children.xmlNodes_eq rest]
    rfl

namespace Element

theorem xmlNode_name (e : Element) : e.xmlNode.name = e.tag.name ++ e.tag.attributes := by
  cases e <;> simp [xmlNode, XmlNode.name, tag]

theorem xmlNode_content (e : Element) : e.xmlNode.content = e.content := by
  cases e <;> simp [xmlNode, XmlNode.content, content]

theorem xmlNode_children (e : Element) :
    e.xmlNode.children = e.children.map Element.xmlNode := by
  cases e with
  | text tag text => simp [xmlNode, XmlNode.children, children]
  | nest tag children => simp [xmlNode, XmlNode.children, Element.children,
      Children.xmlNodes_eq]

end Element

/-! ## Scanning -/

/-- A text that does not end in white space. -/
def Solid (s : List UInt8) : Prop := ∀ b ∈ s.getLast?, isSpace b = false

theorem Solid.tail {b : UInt8} {s : List UInt8} (h : Solid (b :: s)) : Solid s := by
  intro c hc
  cases s with
  | nil => cases hc
  | cons d s => exact h c (by rwa [List.getLast?_cons_cons])

theorem Solid.exists_mem {s : List UInt8} (h : Solid s) (hs : s ≠ []) :
    ∃ b ∈ s, isSpace b = false :=
  ⟨s.getLast hs, List.getLast_mem hs, h _ (List.getLast?_eq_some_getLast hs)⟩

/-- A solid text is scanned to its end when none of its own bytes stops the scan
and the byte peeked behind it does. -/
theorem xmlScan_solid (stop : UInt8 → Bool) (s rest : List UInt8) (left n : Nat)
    (hrest : rest ≠ []) (hstop : stop (xmlParserPeek rest 0) = true)
    (hgo : ∀ b ∈ s, isSpace b = false → stop b = false) (hsolid : Solid s)
    (hleft : s.length < left) : xmlScan stop left (s ++ rest) n = (n + s.length, rest) := by
  induction s generalizing left n with
  | nil =>
    obtain ⟨left, rfl⟩ := Nat.exists_eq_succ_of_ne_zero (Nat.ne_zero_of_lt hleft)
    simp [xmlScan, hstop]
  | cons b s ih =>
    obtain ⟨left, rfl⟩ := Nat.exists_eq_succ_of_ne_zero (Nat.ne_zero_of_lt hleft)
    obtain ⟨hmem, hpeek⟩ := xmlParserPeek_mem (hsolid.exists_mem (by simp)) rest
    have hgoes := hgo _ hmem hpeek
    have hne : s ++ rest ≠ [] := by simp [hrest]
    have hs : s.length < left := Nat.lt_of_succ_lt_succ hleft
    rw [xmlScan, if_neg (by rw [hgoes]; decide), List.cons_append, xmlParserConsume_one b hne,
      ih left (n + 1) (fun c hc => hgo c (by simp [hc])) hsolid.tail hs]
    simp [Nat.add_comm, Nat.add_left_comm]

/-! ## Tags -/

namespace Tag

variable (tag : Tag)

/-- What the parser keeps of an opening tag. -/
theorem solid_label : Solid (tag.name ++ tag.attributes) := by
  intro b hb
  rw [List.getLast?_append] at hb
  cases hlast : tag.attributes.getLast? with
  | some c =>
    rw [hlast] at hb
    obtain rfl : c = b := by simpa using hb
    exact (tag.attributes_end c hlast).1
  | none =>
    rw [hlast] at hb
    exact (tag.name_plain b (List.mem_of_getLast? (by simpa using hb))).1

theorem solid_name : Solid tag.name := fun b hb =>
  (tag.name_plain b (List.mem_of_getLast? hb)).1

theorem not_mem_label : 62 ∉ tag.name ++ tag.attributes := by
  intro h
  rcases List.mem_append.mp h with h | h
  · exact (tag.name_plain 62 h).2.2.1 rfl
  · exact tag.attributes_open h

/-- No opening tag closes its element. -/
theorem label_getLast : (tag.name ++ tag.attributes).getLast? ≠ some 47 := by
  intro h
  rw [List.getLast?_append] at h
  cases hlast : tag.attributes.getLast? with
  | some c =>
    rw [hlast] at h
    exact (tag.attributes_end c hlast).2 (by simpa using h)
  | none =>
    rw [hlast] at h
    exact (tag.name_plain 47 (List.mem_of_getLast? (by simpa using h))).2.2.2.1 rfl

end Tag

theorem xmlParseTagEnd_solid {s : List UInt8} (hsolid : Solid s) (hs : 62 ∉ s)
    (rest : List UInt8) :
    xmlParseTagEnd (s ++ 62 :: rest) = some (s, xmlParserConsume (62 :: rest) 1) := by
  have hgo : ∀ b ∈ s, isSpace b = false → (b == 62 || isSpace b) = false := by
    intro b hb hsp
    rw [hsp, Bool.or_false, beq_eq_false_iff_ne]
    rintro rfl
    exact hs hb
  have hscan := xmlScan_solid (fun current => current == 62 || isSpace current) s (62 :: rest)
    (s ++ 62 :: rest).length 0 (by simp) (by simp [xmlParserPeek_zero isSpace_gt])
    hgo hsolid (by simp)
  simp only [xmlParseTagEnd]
  rw [hscan]
  simp [xmlParserPeek_zero isSpace_gt]

/-- An opening tag behind white space. -/
theorem xmlParseTagOpen_opening (blank : Blank) (tag : Tag) (rest : List UInt8) :
    xmlParseTagOpen (blank.bytes ++ (tag.opening ++ rest)) =
      some (tag.name ++ tag.attributes, xmlParserConsume (62 :: rest) 1) := by
  have hshape : tag.opening ++ rest = 60 :: ((tag.name ++ tag.attributes) ++ 62 :: rest) := by
    simp [Tag.opening]
  rw [hshape, xmlParseTagOpen, xmlSkipWhitespace_blank blank.isSpace_of_mem isSpace_lt]
  simp only [xmlParserPeek_zero isSpace_lt, ne_eq, not_true_eq_false, if_false]
  rw [xmlParserConsume_one 60 (by simp), xmlParseTagEnd_solid tag.solid_label tag.not_mem_label]

/-- A closing tag behind white space. -/
theorem xmlParseTagClose_closing (blank : Blank) (tag : Tag) (rest : List UInt8) :
    xmlParseTagClose (blank.bytes ++ (tag.closing ++ rest)) =
      some (tag.name, xmlParserConsume (62 :: rest) 1) := by
  have hshape : tag.closing ++ rest = 60 :: 47 :: (tag.name ++ 62 :: rest) := by
    simp [Tag.closing]
  have hname : 62 ∉ tag.name := fun h => (tag.name_plain 62 h).2.2.1 rfl
  rw [hshape, xmlParseTagClose, xmlSkipWhitespace_blank blank.isSpace_of_mem isSpace_lt]
  simp only [xmlParserPeek_zero isSpace_lt, xmlParserPeek_succ isSpace_lt,
    xmlParserPeek_zero isSpace_slash, ne_eq, not_true_eq_false, or_self, if_false]
  have htwo : xmlParserConsume (60 :: 47 :: (tag.name ++ 62 :: rest)) 2 = tag.name ++ 62 :: rest :=
    xmlParserConsume_append [60, 47] (by simp)
  rw [htwo, xmlParseTagEnd_solid tag.solid_name hname]

/-- A closing tag matches an opening one that begins with its name. -/
theorem xmlStringEquals_label (tag : Tag) :
    xmlStringEquals (tag.name ++ tag.attributes) tag.name = true := by
  simp [xmlStringEquals]

/-! ## Texts -/

theorem Tag.closing_eq (tag : Tag) (rest : List UInt8) :
    tag.closing ++ rest = 60 :: (47 :: (tag.name ++ 62 :: rest)) := by
  simp [Tag.closing]

/-- In front of a closing tag. -/
theorem xmlParserPeek_closing (blank : Blank) (tag : Tag) (rest : List UInt8) :
    xmlParserPeek (blank.bytes ++ (tag.closing ++ rest)) 0 = 60 ∧
      xmlParserPeek (blank.bytes ++ (tag.closing ++ rest)) 1 = 47 := by
  rw [tag.closing_eq, xmlParserPeek_blank blank.isSpace_of_mem,
    xmlParserPeek_blank blank.isSpace_of_mem, xmlParserPeek_zero isSpace_lt,
    xmlParserPeek_succ isSpace_lt, xmlParserPeek_zero isSpace_slash]
  exact ⟨rfl, rfl⟩

/-- A text that is not blank is read up to the white space in front of the next
tag. -/
theorem xmlParseContent_text {text : Text} (hne : text.stripped ≠ []) (rest : List UInt8) :
    ∃ blank : Blank, xmlParseContent (text.bytes ++ 60 :: rest) =
      some (text.stripped, blank.bytes ++ 60 :: rest) := by
  obtain ⟨front, back, hsplit, hfront, hback⟩ := strip_split isSpace text.bytes
  have hfirst := strip_head isSpace (s := text.bytes)
  have hlast := strip_getLast isSpace (s := text.bytes)
  have hpart := strip_isInfix isSpace (s := text.bytes)
  have htrim := rdropWhile_strip isSpace text.bytes
  refine ⟨⟨back, hback⟩, ?_⟩
  change strip isSpace text.bytes ≠ [] at hne
  rw [Text.stripped]
  generalize strip isSpace text.bytes = core at hsplit hfirst hlast hpart htrim hne
  obtain ⟨c, core', rfl⟩ := List.exists_cons_of_ne_nil hne
  have hskip : xmlSkipWhitespace (text.bytes ++ 60 :: rest) =
      (c :: core') ++ (back ++ 60 :: rest) := by
    have hshape : text.bytes ++ 60 :: rest = front ++ c :: (core' ++ (back ++ 60 :: rest)) := by
      rw [hsplit]
      simp
    rw [hshape, xmlSkipWhitespace_blank hfront (hfirst c rfl)]
    rfl
  have hpeek : xmlParserPeek (back ++ 60 :: rest) 0 = 60 := by
    rw [xmlParserPeek_blank hback, xmlParserPeek_zero isSpace_lt]
  have hgo : ∀ b ∈ c :: core', isSpace b = false → (b == 60) = false := by
    intro b hb _
    rw [beq_eq_false_iff_ne]
    rintro rfl
    exact text.no_tag (hpart.subset hb)
  have hscan := xmlScan_solid (fun current => current == 60) (c :: core') (back ++ 60 :: rest)
    ((c :: core') ++ (back ++ 60 :: rest)).length 0 (by simp) (by simp [hpeek]) hgo hlast
    (by simp only [List.length_append, List.length_cons]; omega)
  simp only [xmlParseContent, hskip]
  rw [hscan]
  simp only [hpeek, ne_eq, not_true_eq_false, if_false, Nat.zero_add, List.take_left, htrim]

/-- The body of an element that holds a text. -/
theorem xmlParseBody_text (parseNode : List UInt8 → Option (XmlNode × List UInt8)) (tag : Tag)
    (text : Text) (rest : List UInt8) :
    ∃ blank : Blank, xmlParseBody parseNode (text.bytes ++ (tag.closing ++ rest)) =
      some ((if text.stripped = [] then none else some text.stripped, []),
        blank.bytes ++ (tag.closing ++ rest)) := by
  by_cases hblank : text.stripped = []
  · -- Nothing but white space: the loop over the children ends at once.
    have hall := (strip_eq_nil_iff isSpace).mp hblank
    obtain ⟨hpeek, hnext⟩ := xmlParserPeek_closing ⟨text.bytes, hall⟩ tag rest
    refine ⟨⟨text.bytes, hall⟩, ?_⟩
    rw [xmlParseBody, if_neg (not_not.mpr hpeek), xmlParseChildren, if_pos hnext, if_pos hblank]
    rfl
  · obtain ⟨b, hb, hsolid⟩ : ∃ b ∈ text.bytes, isSpace b = false := by
      by_contra hno
      refine hblank ((strip_eq_nil_iff isSpace).mpr fun a ha => ?_)
      by_contra hspace
      exact hno ⟨a, ha, Bool.eq_false_iff.mpr hspace⟩
    have hpeek : xmlParserPeek (text.bytes ++ (tag.closing ++ rest)) 0 ≠ 60 := by
      intro h
      have hmem := (xmlParserPeek_mem ⟨b, hb, hsolid⟩ (tag.closing ++ rest)).1
      rw [h] at hmem
      exact text.no_tag hmem
    obtain ⟨blank, hcontent⟩ :=
      xmlParseContent_text hblank (47 :: (tag.name ++ 62 :: rest))
    rw [← tag.closing_eq] at hcontent
    refine ⟨blank, ?_⟩
    rw [xmlParseBody, if_pos hpeek, hcontent, if_neg hblank]
    rfl

/-! ## Elements -/

theorem Element.bytes_eq (e : Element) :
    ∃ tail, e.bytes = 60 :: (e.tag.name ++ tail) := by
  cases e with
  | text tag t => exact ⟨_, by simp only [Element.bytes, Tag.opening, Element.tag,
      List.append_assoc, List.cons_append]; rfl⟩
  | nest tag children => exact ⟨_, by simp only [Element.bytes, Tag.opening, Element.tag,
      List.append_assoc, List.cons_append]; rfl⟩

theorem Element.bytes_ne_nil (e : Element) : e.bytes ≠ [] := by
  obtain ⟨tail, h⟩ := e.bytes_eq
  rw [h]
  exact List.cons_ne_nil _ _

theorem Children.bytes_of_mem {e : Element} : ∀ {children : Children}, e ∈ children.toList →
    e.bytes <:+: children.bytes
  | .nil _, h => by cases h
  | .cons blank child others, h => by
    rcases List.mem_cons.mp h with rfl | h
    · exact ⟨blank.bytes, others.bytes, by simp [Children.bytes]⟩
    · have hothers := Children.bytes_of_mem h
      simp only [Children.bytes, ← List.append_assoc]
      exact hothers.trans (List.suffix_append _ _).isInfix

/-- A child is written inside its parent. -/
theorem Element.bytes_of_mem {e parent : Element} (h : e ∈ parent.children) :
    e.bytes <:+: parent.bytes := by
  cases parent with
  | text tag t => cases h
  | nest tag children =>
    exact (Children.bytes_of_mem h).trans ⟨tag.opening, tag.closing, by simp [Element.bytes]⟩

/-- In front of an element. -/
theorem xmlParserPeek_element (blank : Blank) (e : Element) (rest : List UInt8) :
    xmlParserPeek (blank.bytes ++ (e.bytes ++ rest)) 0 = 60 ∧
      xmlParserPeek (blank.bytes ++ (e.bytes ++ rest)) 1 ≠ 47 := by
  obtain ⟨tail, htail⟩ := e.bytes_eq
  obtain ⟨c, name, hname⟩ := List.exists_cons_of_ne_nil e.tag.name_ne_nil
  have hc := e.tag.name_plain c (by rw [hname]; simp)
  rw [htail, List.cons_append, xmlParserPeek_blank blank.isSpace_of_mem,
    xmlParserPeek_blank blank.isSpace_of_mem, xmlParserPeek_zero isSpace_lt,
    xmlParserPeek_succ isSpace_lt, hname, List.cons_append, List.cons_append,
    xmlParserPeek_zero hc.1]
  exact ⟨rfl, hc.2.2.2.1⟩

/-- The tags around a body. -/
theorem xmlParseNode_tags {fuel : Nat} (blank last : Blank) (tag : Tag)
    {inner rest : List UInt8} {content : Option (List UInt8)} {children : List XmlNode}
    (hbody : xmlParseBody (xmlParseNode fuel) (inner ++ (tag.closing ++ rest)) =
      some ((content, children), last.bytes ++ (tag.closing ++ rest))) :
    xmlParseNode (fuel + 1) (blank.bytes ++ (tag.opening ++ (inner ++ tag.closing) ++ rest)) =
      some (.node (tag.name ++ tag.attributes) content children,
        xmlParserConsume (62 :: rest) 1) := by
  have hinner : inner ++ (tag.closing ++ rest) ≠ [] := by simp [Tag.closing]
  rw [List.append_assoc, List.append_assoc, xmlParseNode, xmlParseTagOpen_opening,
    Option.bind_some]
  simp only [if_neg tag.label_getLast]
  rw [xmlParserConsume_one 62 hinner, hbody, Option.bind_some, xmlParseTagClose_closing,
    Option.bind_some, if_pos (xmlStringEquals_label tag)]

mutual

/-- **An element is parsed into its node.**  Behind it the parser stands at what
follows the element, or at its last byte where nothing does. -/
theorem xmlParseNode_element : ∀ (e : Element) (blank : Blank) (rest : List UInt8) (fuel : Nat),
    e.bytes.length ≤ fuel →
    xmlParseNode fuel (blank.bytes ++ (e.bytes ++ rest)) =
      some (e.xmlNode, xmlParserConsume (62 :: rest) 1)
  | e, _, _, 0, hfuel =>
    absurd (List.eq_nil_of_length_eq_zero (Nat.le_zero.mp hfuel)) e.bytes_ne_nil
  | .text tag t, blank, rest, fuel + 1, _ => by
    obtain ⟨last, hbody⟩ := xmlParseBody_text (xmlParseNode fuel) tag t rest
    exact xmlParseNode_tags blank last tag hbody
  | .nest tag children, blank, rest, fuel + 1, hfuel => by
    have hlen : children.bytes.length ≤ fuel := by
      simp only [Element.bytes, Tag.opening, List.length_append, List.length_cons] at hfuel
      omega
    obtain ⟨last, hchildren⟩ := xmlParseChildren_children children tag rest fuel
      ((children.bytes ++ (tag.closing ++ rest)).length + 1) hlen
      (by simp only [List.length_append]; omega)
    have hpeek : xmlParserPeek (children.bytes ++ (tag.closing ++ rest)) 0 = 60 := by
      cases children with
      | nil first => exact (xmlParserPeek_closing first tag rest).1
      | cons first child others =>
        simp only [Children.bytes, List.append_assoc]
        exact (xmlParserPeek_element first child _).1
    refine xmlParseNode_tags blank last tag ?_
    rw [xmlParseBody, if_neg (not_not.mpr hpeek), hchildren]
    rfl

/-- The loop over the children ends in front of the closing tag. -/
theorem xmlParseChildren_children : ∀ (children : Children) (tag : Tag) (rest : List UInt8)
    (fuel turns : Nat), children.bytes.length ≤ fuel → children.bytes.length < turns →
    ∃ last : Blank,
      xmlParseChildren (xmlParseNode fuel) turns (children.bytes ++ (tag.closing ++ rest)) =
        some (children.xmlNodes, last.bytes ++ (tag.closing ++ rest))
  | .nil blank, tag, rest, fuel, turns + 1, _, _ => by
    refine ⟨blank, ?_⟩
    rw [xmlParseChildren, Children.bytes, if_pos (xmlParserPeek_closing blank tag rest).2]
    rfl
  | .cons blank child others, tag, rest, fuel, turns + 1, hfuel, hturns => by
    have hchild := List.length_pos_iff.mpr child.bytes_ne_nil
    simp only [Children.bytes, List.length_append] at hfuel hturns
    have hnode := xmlParseNode_element child blank (others.bytes ++ (tag.closing ++ rest)) fuel
      (by omega)
    rw [xmlParserConsume_one 62 (by simp [Tag.closing])] at hnode
    obtain ⟨last, hothers⟩ := xmlParseChildren_children others tag rest fuel turns (by omega)
      (by omega)
    refine ⟨last, ?_⟩
    simp only [Children.bytes, List.append_assoc]
    rw [xmlParseChildren, if_neg (xmlParserPeek_element blank child _).2, hnode,
      Option.bind_some, hothers]
    rfl

end

/-- A document with white space around its root. -/
theorem xmlParseDocument_element (first : Blank) (e : Element) (last : Blank) :
    xmlParseDocument (first.bytes ++ (e.bytes ++ last.bytes)) = some e.xmlNode := by
  have hpos := List.length_pos_iff.mpr e.bytes_ne_nil
  rw [xmlParseDocument, if_neg (by simp only [List.length_append]; omega),
    xmlParseNode_element e first last.bytes _ (by simp only [List.length_append]; omega)]
  rfl

end WowProxy
