/-
  Xml/ClosingTags.lean --- whether a closing tag has the name of its element.

  `xml_string_equals` compares what both texts have, and `tag_open` is the whole text
  of the tag, with its attributes.  `xml_parse_node` forgets the closing tags, so the
  parse is repeated here with the tags of every element that is closed by one, and
  their places in the document; `xmlTagsDocument_isSome` says that it is the same
  parse.  What a tag has to be is said of the bytes of the document at these places.
-/
import WowProxy.Xml.XmlElement

set_option autoImplicit false

namespace WowProxy

/-! ## The tags of a parse -/

/-- `tag_open` and `tag_close` of one element, and where they stand. -/
structure XmlTags where
  /-- the document behind the `<` of the opening tag -/
  opening : List UInt8
  tagOpen : List UInt8
  /-- the document behind the two bytes that the closing tag begins with -/
  closing : List UInt8
  tagClose : List UInt8
  deriving DecidableEq

namespace XmlTags

variable (tags : XmlTags)

/-- The name of the element: the text of its tag up to the first white space. -/
def elementName : List UInt8 := tags.tagOpen.takeWhile fun b => !isSpace b

/-- In the document: the bytes behind `<` up to white space or the `>`. -/
def nameBytes : List UInt8 := tags.opening.takeWhile fun b => !isSpace b && b != 62

/-- The bytes behind `</` up to the `>`, without the white space at their end. -/
def closeBytes : List UInt8 := (tags.closing.takeWhile (· ≠ 62)).rdropWhile isSpace

/-- Both tags stand in the document `p`. -/
structure In (p : List UInt8) : Prop where
  opening : ∃ front, p = front ++ 60 :: tags.opening
  closing : ∃ front b, p = front ++ 60 :: b :: tags.closing

end XmlTags

/-- The tags in the loop of `xml_parse_node` over the children. -/
def xmlTagsChildren (parseTags : List UInt8 → Option (List XmlTags × List UInt8)) :
    Nat → List UInt8 → Option (List XmlTags × List UInt8)
  | 0, _ => none
  | fuel + 1, p =>
    if xmlParserPeek p 1 = 47 then some ([], p)
    else
      (parseTags p).bind fun child =>
        (xmlTagsChildren parseTags fuel child.2).map fun rest => (child.1 ++ rest.1, rest.2)

/-- The tags of what stands in an element. -/
def xmlTagsBody (parseTags : List UInt8 → Option (List XmlTags × List UInt8)) (p : List UInt8) :
    Option (List XmlTags × List UInt8) :=
  if xmlParserPeek p 0 ≠ 60 then (xmlParseContent p).map fun content => ([], content.2)
  else xmlTagsChildren parseTags (p.length + 1) p

/-- The tags of every element that `xml_parse_node` closes with a tag, outermost
first. -/
def xmlTagsNode : Nat → List UInt8 → Option (List XmlTags × List UInt8)
  | 0, _ => none
  | fuel + 1, p =>
    (xmlParseTagOpen p).bind fun tagOpen =>
      if tagOpen.1.getLast? = some 47 then some ([], tagOpen.2)
      else
        (xmlTagsBody (xmlTagsNode fuel) tagOpen.2).bind fun body =>
          (xmlParseTagClose body.2).bind fun tagClose =>
            if xmlStringEquals tagOpen.1 tagClose.1 then
              some (⟨xmlParserConsume (xmlSkipWhitespace p) 1, tagOpen.1,
                xmlParserConsume (xmlSkipWhitespace body.2) 2, tagClose.1⟩ :: body.1, tagClose.2)
            else none

/-- The tags of a document. -/
def xmlTagsDocument (buffer : List UInt8) : Option (List XmlTags) :=
  if buffer.length = 0 then none
  else (xmlTagsNode buffer.length buffer).map fun tags => tags.1

/-! ## It is the same parse -/

/-- Two steps that leave the same bytes, or both fail. -/
theorem same_cases {α β : Type} {parse : List UInt8 → Option (α × List UInt8)}
    {parse' : List UInt8 → Option (β × List UInt8)}
    (hsame : ∀ p, (parse p).map Prod.snd = (parse' p).map Prod.snd) (p : List UInt8) :
    parse p = none ∧ parse' p = none ∨
      ∃ parsed parsed' rest, parse p = some (parsed, rest) ∧ parse' p = some (parsed', rest) := by
  have h := hsame p
  cases hparse : parse p with
  | none =>
    rw [hparse, Option.map_none] at h
    exact Or.inl ⟨rfl, Option.map_eq_none_iff.mp h.symm⟩
  | some parsed =>
    rw [hparse, Option.map_some] at h
    obtain ⟨parsed', hparse', hrest⟩ := Option.map_eq_some_iff.mp h.symm
    exact Or.inr ⟨parsed.1, parsed'.1, parsed.2, rfl, by rw [hparse', ← hrest]⟩

section Same

variable {parseTags : List UInt8 → Option (List XmlTags × List UInt8)}
  {parseNode : List UInt8 → Option (XmlNode × List UInt8)}
  (hsame : ∀ p, (parseTags p).map Prod.snd = (parseNode p).map Prod.snd)

include hsame

theorem xmlTagsChildren_snd : ∀ (fuel : Nat) (p : List UInt8),
    (xmlTagsChildren parseTags fuel p).map Prod.snd =
      (xmlParseChildren parseNode fuel p).map Prod.snd
  | 0, _ => rfl
  | fuel + 1, p => by
    unfold xmlTagsChildren xmlParseChildren
    split
    · rfl
    · rcases same_cases hsame p with ⟨htags, hnode⟩ | ⟨tags, node, rest, htags, hnode⟩
      · rw [htags, hnode]
        rfl
      · have ih := xmlTagsChildren_snd fuel rest
        rw [htags, hnode, Option.bind_some, Option.bind_some, Option.map_map, Option.map_map]
        exact ih

theorem xmlTagsBody_snd (p : List UInt8) :
    (xmlTagsBody parseTags p).map Prod.snd = (xmlParseBody parseNode p).map Prod.snd := by
  unfold xmlTagsBody xmlParseBody
  split
  · rw [Option.map_map, Option.map_map]
    rfl
  · rw [Option.map_map]
    exact xmlTagsChildren_snd hsame _ p

end Same

/-- **Both parses leave the same, or fail.** -/
theorem xmlTagsNode_snd : ∀ (fuel : Nat) (p : List UInt8),
    (xmlTagsNode fuel p).map Prod.snd = (xmlParseNode fuel p).map Prod.snd
  | 0, _ => rfl
  | fuel + 1, p => by
    unfold xmlTagsNode xmlParseNode
    cases xmlParseTagOpen p with
    | none => rfl
    | some tagOpen =>
      rw [Option.bind_some, Option.bind_some]
      split
      · rfl
      · rcases same_cases (xmlTagsBody_snd (xmlTagsNode_snd fuel)) tagOpen.2 with
          ⟨htags, hbody⟩ | ⟨tags, body, rest, htags, hbody⟩
        · rw [htags, hbody]
          rfl
        · rw [htags, hbody, Option.bind_some, Option.bind_some]
          cases xmlParseTagClose rest with
          | none => rfl
          | some tagClose =>
            rw [Option.bind_some, Option.bind_some]
            split <;> rfl

theorem xmlTagsDocument_isSome {buffer : List UInt8} {root : XmlNode}
    (h : xmlParseDocument buffer = some root) : ∃ tags, xmlTagsDocument buffer = some tags := by
  unfold xmlParseDocument at h
  unfold xmlTagsDocument
  split at h
  · cases h
  · rename_i hlength
    rw [if_neg hlength]
    obtain ⟨node, hnode, -⟩ := Option.map_eq_some_iff.mp h
    rcases same_cases (xmlTagsNode_snd buffer.length) buffer with
      ⟨-, hnone⟩ | ⟨tags, -, rest, htags, -⟩
    · rw [hnone] at hnode
      cases hnode
    · exact ⟨tags, by rw [htags]; rfl⟩

/-! ## The bytes of a tag -/

/-- What is peeked is a byte of the document, or 0. -/
theorem mem_of_xmlParserPeek {p : List UInt8} {n : Nat} {b : UInt8} (hb : b ≠ 0)
    (h : xmlParserPeek p n = b) : b ∈ p := by
  induction p generalizing n with
  | nil => exact absurd h.symm hb
  | cons c p ih =>
    unfold xmlParserPeek at h
    split at h
    · exact List.mem_cons_of_mem c (ih h)
    · cases n with
      | zero => exact h ▸ List.mem_cons_self
      | succ n => exact List.mem_cons_of_mem c (ih h)

/-- A tag that is read has a `>`. -/
theorem xmlParseTagEnd_closed {p : List UInt8} {tag : List UInt8 × List UInt8}
    (h : xmlParseTagEnd p = some tag) : 62 ∈ p := by
  simp only [xmlParseTagEnd, ite_eq_iff, reduceCtorEq, and_false, false_or, not_not] at h
  exact (xmlScan_suffix _ _ _ _).subset (mem_of_xmlParserPeek (by decide) h.1)

/-- The text of a tag is what stands in front of its `>`, without the white space at
its end. -/
theorem xmlParseTagEnd_text {p : List UInt8} {tag : List UInt8 × List UInt8}
    (h : xmlParseTagEnd p = some tag) :
    tag.1 = (p.takeWhile (· ≠ 62)).rdropWhile isSpace ∧
      ∃ blank rest, p = tag.1 ++ (blank ++ 62 :: rest) ∧ ∀ b ∈ blank, isSpace b = true := by
  have hclosed := xmlParseTagEnd_closed h
  -- The document is the text, the white space, the first `>` and the rest.
  let s := (p.takeWhile (· ≠ 62)).rdropWhile isSpace
  let blank := (p.takeWhile (· ≠ 62)).rtakeWhile isSpace
  obtain ⟨rest, hrest⟩ : ∃ rest, p.dropWhile (· ≠ 62) = 62 :: rest := by
    cases hdrop : p.dropWhile (· ≠ 62) with
    | nil => exact absurd (List.dropWhile_eq_nil_iff.mp hdrop 62 hclosed) (by simp)
    | cons b rest =>
      have hb := List.head?_dropWhile_not (· ≠ 62) p
      rw [hdrop] at hb
      obtain rfl : b = 62 := by simpa using hb
      exact ⟨rest, rfl⟩
  have hp : p = s ++ (blank ++ 62 :: rest) := by
    rw [← List.append_assoc, List.rdropWhile_append_rtakeWhile, ← hrest,
      List.takeWhile_append_dropWhile]
  have hblank : ∀ b ∈ blank, isSpace b = true := fun b hb => List.mem_rtakeWhile_imp hb
  have hsolid : Solid s := fun b hb => by
    have hne : s ≠ [] := by
      rintro hnil
      rw [hnil] at hb
      exact absurd hb (by simp)
    have hlast := List.rdropWhile_last_not isSpace _ hne
    rw [List.getLast?_eq_some_getLast hne, Option.mem_some_iff] at hb
    exact hb ▸ Bool.eq_false_iff.mpr hlast
  have hs : 62 ∉ s := fun hmem =>
    absurd (List.mem_takeWhile_imp ((List.rdropWhile_prefix _ _).subset hmem)) (by simp)
  have hscan := xmlScan_solid (fun current => current == 62 || isSpace current) s
    (blank ++ 62 :: rest) p.length 0 (by simp)
    (by rw [xmlParserPeek_blank hblank, xmlParserPeek_zero isSpace_gt]; rfl)
    (fun b hb hspace => by
      rw [hspace, Bool.or_false, beq_eq_false_iff_ne]
      rintro rfl
      exact hs hb)
    hsolid (by rw [hp, List.length_append, List.length_append, List.length_cons]; omega)
  rw [← hp, Nat.zero_add] at hscan
  have htag : tag.1 = s := by
    simp only [xmlParseTagEnd, hscan, ite_eq_iff, reduceCtorEq, and_false, false_or] at h
    rw [← Option.some.inj h.2]
    dsimp only
    rw [hp, List.take_left]
  exact ⟨htag, blank, rest, htag ▸ hp, hblank⟩

/-- White space is skipped up to a byte that is shown. -/
theorem xmlSkipWhitespace_shows {b : UInt8} (hb : b ≠ 0) : ∀ {p : List UInt8},
    xmlParserPeek (xmlSkipWhitespace p) 0 = b → ∃ rest, xmlSkipWhitespace p = b :: rest
  | [], h => absurd h.symm hb
  | [c], h => by
    cases hc : isSpace c with
    | true => exact absurd ((xmlParserPeek_space hc [] 0).symm.trans h).symm hb
    | false => exact ⟨[], congrArg (fun d => [d]) ((xmlParserPeek_zero hc []).symm.trans h)⟩
  | c :: d :: rest, h => by
    unfold xmlSkipWhitespace at h ⊢
    split at h
    · rename_i hc
      rw [if_pos hc]
      exact xmlSkipWhitespace_shows hb h
    · rename_i hc
      rw [if_neg hc]
      rw [xmlParserPeek_zero (Bool.eq_false_iff.mpr hc)] at h
      exact ⟨d :: rest, by rw [h]⟩

/-- Where the text of an opening tag stands. -/
theorem xmlParseTagOpen_place {p : List UInt8} {tag : List UInt8 × List UInt8}
    (h : xmlParseTagOpen p = some tag) :
    xmlParseTagEnd (xmlParserConsume (xmlSkipWhitespace p) 1) = some tag ∧
      ∃ front, p = front ++ 60 :: xmlParserConsume (xmlSkipWhitespace p) 1 := by
  simp only [xmlParseTagOpen, ite_eq_iff, reduceCtorEq, and_false, false_or, not_not] at h
  obtain ⟨hopen, hend⟩ := h
  obtain ⟨rest, hskip⟩ := xmlSkipWhitespace_shows (by decide) hopen
  obtain ⟨front, hfront⟩ := xmlSkipWhitespace_suffix p
  refine ⟨hend, front, ?_⟩
  have hrest : rest ≠ [] := by
    rintro rfl
    rw [hskip] at hend
    exact absurd (xmlParseTagEnd_closed hend) (by decide)
  exact hfront.symm.trans (by rw [hskip, xmlParserConsume_one 60 hrest])

/-- Where the text of a closing tag stands. -/
theorem xmlParseTagClose_place {p : List UInt8} {tag : List UInt8 × List UInt8}
    (h : xmlParseTagClose p = some tag) :
    xmlParseTagEnd (xmlParserConsume (xmlSkipWhitespace p) 2) = some tag ∧
      ∃ front b, p = front ++ 60 :: b :: xmlParserConsume (xmlSkipWhitespace p) 2 := by
  simp only [xmlParseTagClose, ite_eq_iff, reduceCtorEq, and_false, false_or, not_or,
    not_not] at h
  obtain ⟨⟨hopen, hslash⟩, hend⟩ := h
  obtain ⟨rest, hskip⟩ := xmlSkipWhitespace_shows (by decide) hopen
  obtain ⟨front, hfront⟩ := xmlSkipWhitespace_suffix p
  refine ⟨hend, front, ?_⟩
  rw [hskip, xmlParserPeek_succ isSpace_lt] at hslash
  cases rest with
  | nil => exact absurd hslash (by decide)
  | cons b rest =>
    have hrest : rest ≠ [] := by
      rintro rfl
      -- The only byte is the `/`, and there is no `>` behind it.
      have hmem := mem_of_xmlParserPeek (by decide) hslash
      obtain rfl : 47 = b := List.mem_singleton.mp hmem
      rw [hskip] at hend
      exact absurd (xmlParseTagEnd_closed hend) (by decide)
    have hconsume : xmlParserConsume (60 :: b :: rest) 2 = rest :=
      xmlParserConsume_append [60, b] hrest
    exact ⟨b, hfront.symm.trans (by rw [hskip, hconsume])⟩

/-! ## What the parse says of the tags -/

namespace XmlTags

variable {tags : XmlTags}

/-- The tags have been read where they stand, and have passed `xml_string_equals`. -/
structure Parsed (tags : XmlTags) : Prop where
  opened : ∃ rest, xmlParseTagEnd tags.opening = some (tags.tagOpen, rest)
  closed : ∃ rest, xmlParseTagEnd tags.closing = some (tags.tagClose, rest)
  compared : xmlStringEquals tags.tagOpen tags.tagClose = true

theorem In.of_suffix {p q : List UInt8} (h : tags.In q) (hsuffix : q <:+ p) : tags.In p := by
  obtain ⟨front, rfl⟩ := hsuffix
  obtain ⟨⟨before, hopen⟩, before', b, hclose⟩ := h
  exact ⟨⟨front ++ before, by rw [hopen, List.append_assoc]⟩,
    front ++ before', b, by rw [hclose, List.append_assoc]⟩

/-- In front of the `>` only white space ends a name. -/
theorem takeWhile_open {s : List UInt8} (h : 62 ∉ s) :
    s.takeWhile (fun b => !isSpace b && b != 62) = s.takeWhile fun b => !isSpace b := by
  induction s with
  | nil => rfl
  | cons b s ih =>
    obtain ⟨hb, hs⟩ := not_or.mp fun hmem => h (List.mem_cons.mpr hmem)
    have hne : (b != 62) = true := bne_iff_ne.mpr fun heq => hb heq.symm
    rw [List.takeWhile_cons, List.takeWhile_cons, ih hs, hne, Bool.and_true]

/-- The name of the element is what stands behind its `<`. -/
theorem Parsed.elementName_eq (h : tags.Parsed) : tags.elementName = tags.nameBytes := by
  obtain ⟨rest, hopened⟩ := h.opened
  obtain ⟨htext, blank, behind, hbytes, hblank⟩ := xmlParseTagEnd_text hopened
  dsimp only at htext hbytes
  have hopen : 62 ∉ tags.tagOpen := fun hmem => by
    rw [htext] at hmem
    exact absurd (List.mem_takeWhile_imp ((List.rdropWhile_prefix _ _).subset hmem)) (by simp)
  have hstop : (blank ++ 62 :: behind).takeWhile (fun b => !isSpace b && b != 62) = [] := by
    cases blank with
    | nil => rfl
    | cons c blank =>
      rw [List.cons_append, List.takeWhile_cons_of_neg]
      simp [hblank c List.mem_cons_self]
  have hsame : tags.tagOpen.takeWhile (fun b => !isSpace b && b != 62) = tags.elementName :=
    takeWhile_open hopen
  rw [nameBytes, hbytes, List.takeWhile_append, hstop, hsame]
  split
  · rename_i hall
    rw [List.append_nil]
    exact (List.takeWhile_prefix _).eq_of_length hall
  · rfl

/-- The text of the closing tag is what stands behind its `</`. -/
theorem Parsed.tagClose_eq (h : tags.Parsed) : tags.tagClose = tags.closeBytes := by
  obtain ⟨rest, hclosed⟩ := h.closed
  exact (xmlParseTagEnd_text hclosed).1

/-- A closing tag that passed is the name of its element exactly when it is as long in
the document. -/
theorem Parsed.closes_iff (h : tags.Parsed) :
    tags.tagClose = tags.elementName ↔ tags.closeBytes.length = tags.nameBytes.length := by
  rw [← h.tagClose_eq, ← h.elementName_eq]
  refine ⟨congrArg List.length, fun hlength => ?_⟩
  have hname : tags.elementName <+: tags.tagOpen := List.takeWhile_prefix _
  have hle : tags.tagClose.length ≤ tags.tagOpen.length := hlength ▸ hname.length_le
  have hequal := eq_of_beq h.compared
  rw [Nat.min_eq_right hle, List.take_length, hlength] at hequal
  rw [← hequal]
  exact (List.prefix_iff_eq_take.mp hname).symm

end XmlTags

theorem xmlTagsChildren_parsed
    {parseTags : List UInt8 → Option (List XmlTags × List UInt8)}
    (hparse : ∀ p parsed, parseTags p = some parsed →
      parsed.2 <:+ p ∧ ∀ t ∈ parsed.1, t.Parsed ∧ t.In p) :
    ∀ (fuel : Nat) (p : List UInt8) (parsed : List XmlTags × List UInt8),
      xmlTagsChildren parseTags fuel p = some parsed →
      parsed.2 <:+ p ∧ ∀ t ∈ parsed.1, t.Parsed ∧ t.In p
  | 0, _, _, h => by cases h
  | fuel + 1, p, parsed, h => by
    unfold xmlTagsChildren at h
    split at h
    · rw [← Option.some.inj h]
      exact ⟨List.suffix_refl p, List.forall_mem_nil _⟩
    · obtain ⟨child, hchild, h⟩ := Option.bind_eq_some_iff.mp h
      obtain ⟨rest, hrest, rfl⟩ := Option.map_eq_some_iff.mp h
      obtain ⟨hleft, hfirst⟩ := hparse p child hchild
      obtain ⟨hend, hothers⟩ := xmlTagsChildren_parsed hparse fuel child.2 rest hrest
      refine ⟨hend.trans hleft, List.forall_mem_append.mpr ⟨hfirst, fun t ht => ?_⟩⟩
      obtain ⟨hparsed, hin⟩ := hothers t ht
      exact ⟨hparsed, hin.of_suffix hleft⟩

/-- The tags of every element of a parsed node have been read and compared, and stand in
the document. -/
theorem xmlTagsNode_parsed : ∀ (fuel : Nat) (p : List UInt8)
    (parsed : List XmlTags × List UInt8), xmlTagsNode fuel p = some parsed →
      parsed.2 <:+ p ∧ ∀ t ∈ parsed.1, t.Parsed ∧ t.In p
  | 0, _, _, h => by cases h
  | fuel + 1, p, parsed, h => by
    unfold xmlTagsNode at h
    obtain ⟨tagOpen, hopen, h⟩ := Option.bind_eq_some_iff.mp h
    have hinner := xmlParseTagOpen_suffix hopen
    split at h
    · rw [← Option.some.inj h]
      exact ⟨hinner, List.forall_mem_nil _⟩
    · obtain ⟨body, hbody, h⟩ := Option.bind_eq_some_iff.mp h
      obtain ⟨tagClose, hclose, h⟩ := Option.bind_eq_some_iff.mp h
      have hinside : body.2 <:+ tagOpen.2 ∧ ∀ t ∈ body.1, t.Parsed ∧ t.In tagOpen.2 := by
        unfold xmlTagsBody at hbody
        split at hbody
        · obtain ⟨content, hcontent, rfl⟩ := Option.map_eq_some_iff.mp hbody
          exact ⟨(xmlParseContent_parts hcontent).2, List.forall_mem_nil _⟩
        · exact xmlTagsChildren_parsed (xmlTagsNode_parsed fuel) _ _ _ hbody
      obtain ⟨hleft, hall⟩ := hinside
      obtain ⟨hopened, hplace⟩ := xmlParseTagOpen_place hopen
      obtain ⟨hclosed, front, b, hplace'⟩ := xmlParseTagClose_place hclose
      obtain ⟨before, hbefore⟩ := hleft.trans hinner
      split at h
      · rename_i hequals
        rw [← Option.some.inj h]
        refine ⟨(xmlParseTagClose_suffix hclose).trans ⟨before, hbefore⟩,
          List.forall_mem_cons.mpr ⟨⟨⟨⟨_, hopened⟩, ⟨_, hclosed⟩, hequals⟩, hplace, ?_⟩, ?_⟩⟩
        · exact ⟨before ++ front, b, by
            rw [← hbefore, List.append_assoc]; exact congrArg (before ++ ·) hplace'⟩
        · intro t ht
          obtain ⟨hparsed, hin⟩ := hall t ht
          exact ⟨hparsed, hin.of_suffix hinner⟩
      · cases h

/-- **In every accepted document the closing tags are the names of their elements exactly
when, in the document, they are as long as the names.**  What is compared is what stands
between `<` and white space or `>`, and between `</` and `>` but for white space at the
end. -/
theorem closingTags_match_iff (buffer : List UInt8) (root : XmlNode)
    (h : xmlParseDocument buffer = some root) :
    ∃ tags, xmlTagsDocument buffer = some tags ∧ (∀ t ∈ tags, t.In buffer) ∧
      ((∀ t ∈ tags, t.tagClose = t.elementName) ↔
        ∀ t ∈ tags, t.closeBytes.length = t.nameBytes.length) := by
  obtain ⟨tags, htags⟩ := xmlTagsDocument_isSome h
  refine ⟨tags, htags, ?_⟩
  unfold xmlTagsDocument at htags
  split at htags
  · cases htags
  · obtain ⟨parsed, hparsed, rfl⟩ := Option.map_eq_some_iff.mp htags
    have hall := (xmlTagsNode_parsed _ _ _ hparsed).2
    exact ⟨fun t ht => (hall t ht).2, forall₂_congr fun t ht => (hall t ht).1.closes_iff⟩

/-- `<a b="1"><c>x</c></a >` -/
def matchedBuffer : List UInt8 := ascii "<a b=\"1\"><c>x</c></a >"

theorem matchedBuffer_closingTags :
    ∃ tags, xmlTagsDocument matchedBuffer = some tags ∧ (∀ t ∈ tags, t.In matchedBuffer) ∧
      ((∀ t ∈ tags, t.tagClose = t.elementName) ↔
        ∀ t ∈ tags, t.closeBytes.length = t.nameBytes.length) :=
  closingTags_match_iff matchedBuffer _ rfl

/-- The tags of `<ab></a >`: the closing tag is shorter than the name. -/
example : (xmlTagsDocument (ascii "<ab></a >")).map (·.map fun t =>
    (t.nameBytes.length, t.closeBytes.length)) = some [(2, 1)] := by decide

/-- An empty closing tag closes any element. -/
theorem emptyClosingTag_accepted : ¬ ∀ (buffer : List UInt8) (root : XmlNode)
    (tags : List XmlTags), xmlParseDocument buffer = some root →
      xmlTagsDocument buffer = some tags → ∀ t ∈ tags, t.tagClose = t.elementName := by
  intro h
  have hclose := h (ascii "<a></>") (.node (ascii "a") none [])
    [⟨ascii "a></>", ascii "a", ascii ">", []⟩] rfl (by decide)
    ⟨ascii "a></>", ascii "a", ascii ">", []⟩ List.mem_cons_self
  exact absurd hclose (by decide)

end WowProxy
