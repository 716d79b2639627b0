/-
  IRI TEXT: how the members of an ontology are written.

  A member is known by the namespace of its ontology and by its own name.  In text it is written
  in one of three forms:

  * FULL         `<http://example.com/dnd#Name>`, the namespace and the name between angle brackets;
  * ABBREVIATED  `p:Name`, where the prefix `p` stands for a namespace;
  * BARE         `Name`, which only means something inside the member's own ontology.

  `Form.of` tells the three apart, `memberIri` writes the full form, and `expand` turns the
  abbreviated form into the full one wherever the prefix is known.

  The crux is that the three forms never overlap: brackets win over colons, which a full IRI
  holds too, and what has neither is bare.  So expanding is idempotent: its result is either full
  already or text that it left alone (`expand_expand`).  And a name behind a prefix is read as
  the two that it was made of, unless the prefix itself has the colon or the bracket
  (`Form.of_prefixed`).

  A prefix ends at the FIRST colon, a namespace at the LAST hash.  So a name may hold colons but no
  hash, if its full IRI is to be told from all others (`memberIri_inj`).
-/
namespace OntologyView.Iri

/-! ## Namespaces -/

/-- `text` without its first character, when that is `c`. -/
def dropLeading (c : Char) : List Char → List Char
  | [] => []
  | x :: rest => if x = c then rest else x :: rest

/-- `text` without its last character, when that is `c`. -/
def dropTrailing (c : Char) (text : List Char) : List Char :=
  if text.getLast? = some c then text.dropLast else text

/-- The bare namespace: one `<` and one `>` are taken off the ends, then ONE separator, a `/` or
    a `#`. -/
def bareNamespace (text : List Char) : List Char :=
  let inner := dropTrailing '>' (dropLeading '<' text)
  if inner.getLast? = some '/' then inner.dropLast else dropTrailing '#' inner

/-- `bareNamespace` on strings. -/
def namespaceIri (ns : String) : String :=
  String.ofList (bareNamespace ns.toList)

theorem toList_namespaceIri (ns : String) :
    (namespaceIri ns).toList = bareNamespace ns.toList :=
  String.toList_ofList

/-- The full IRI of the member `name` of the namespace `ns`. -/
def memberIri (ns name : String) : String :=
  "<" ++ namespaceIri ns ++ "#" ++ name ++ ">"

theorem toList_memberIri (ns name : String) :
    (memberIri ns name).toList =
      '<' :: (bareNamespace ns.toList ++ '#' :: (name.toList ++ ['>'])) := by
  simp [memberIri, toList_namespaceIri]

/-- Namesakes have one full IRI where their namespaces are the same bare one. -/
theorem memberIri_left_inj {ns ns' name : String} :
    memberIri ns name = memberIri ns' name ↔ namespaceIri ns = namespaceIri ns' := by
  simp only [← String.toList_inj, toList_memberIri, toList_namespaceIri, List.cons.injEq, true_and,
    List.append_cancel_right_eq]

/-- Nothing comes in front of a separator in what is itself a separator and then text without one. -/
theorem eq_nil_of_cons_eq_append_cons {c : Char} {between behind behind' : List Char}
    (h : c ∉ behind) (heq : c :: behind = between ++ c :: behind') : between = [] := by
  cases between with
  | nil => rfl
  | cons x between =>
    rw [List.cons_append, List.cons.injEq] at heq
    exact absurd (heq.2 ▸ List.mem_append_right between List.mem_cons_self) h

/-- A text is split in one way at a separator behind which there is no other. -/
theorem append_cons_inj_of_last {c : Char} {before before' behind behind' : List Char}
    (h : c ∉ behind) (h' : c ∉ behind') :
    before ++ c :: behind = before' ++ c :: behind' ↔ before = before' ∧ behind = behind' := by
  constructor
  · intro heq
    -- One of the splits comes first, and has the separator of the other one behind it.
    rcases List.append_eq_append_iff.mp heq with ⟨between, rfl, hrest⟩ | ⟨between, rfl, hrest⟩
    · obtain rfl := eq_nil_of_cons_eq_append_cons h hrest
      exact ⟨(List.append_nil before).symm, (List.cons.inj hrest).2⟩
    · obtain rfl := eq_nil_of_cons_eq_append_cons h' hrest
      exact ⟨List.append_nil before', (List.cons.inj hrest).2.symm⟩
  · rintro ⟨rfl, rfl⟩
    rfl

/-- Names without a hash are told apart, and so are the bare namespaces in front of them, whatever
    hashes these hold. -/
theorem memberIri_inj {ns ns' name name' : String} (h : '#' ∉ name.toList)
    (h' : '#' ∉ name'.toList) : memberIri ns name = memberIri ns' name' ↔
      namespaceIri ns = namespaceIri ns' ∧ name = name' := by
  have hb : '#' ∉ name.toList ++ ['>'] := by simpa using h
  have hb' : '#' ∉ name'.toList ++ ['>'] := by simpa using h'
  simp only [← String.toList_inj, toList_memberIri, toList_namespaceIri, List.cons.injEq, true_and,
    append_cons_inj_of_last hb hb', List.append_cancel_right_eq]

/-- With a hash in the name there is more than one way to read a full IRI. -/
example : memberIri "http://a#b" "c" = memberIri "http://a" "b#c" := by decide +kernel

/-- The abbreviated IRI of the member `name` behind a prefix. -/
def prefixed (nsPrefix name : String) : String :=
  nsPrefix ++ ":" ++ name

theorem toList_prefixed (nsPrefix name : String) :
    (prefixed nsPrefix name).toList = nsPrefix.toList ++ ':' :: name.toList := by
  simp [prefixed]

/-- A prefix that can be told from the name behind it: it has no colon of its own, and does not
    start the way a full IRI does. -/
def Readable (nsPrefix : String) : Prop :=
  ':' ∉ nsPrefix.toList ∧ nsPrefix.toList.head? ≠ some '<'

instance (nsPrefix : String) : Decidable (Readable nsPrefix) :=
  inferInstanceAs (Decidable (_ ∧ _))

/-! ## The three written forms -/

/-- The text around the first colon, without it. -/
def splitColon : List Char → Option (List Char × List Char)
  | [] => none
  | c :: rest =>
    if c = ':' then some ([], rest)
    else (splitColon rest).map fun parts => (c :: parts.1, parts.2)

/-- A split gives the text back, and its first part holds no colon. -/
theorem splitColon_eq_some_iff {text p n : List Char} :
    splitColon text = some (p, n) ↔ text = p ++ ':' :: n ∧ ':' ∉ p := by
  induction text generalizing p with
  | nil => simp [splitColon]
  | cons c rest ih =>
    by_cases hc : c = ':'
    · subst hc
      simp only [splitColon, if_pos, Option.some.injEq, Prod.mk.injEq]
      constructor
      · rintro ⟨rfl, rfl⟩; simp
      · rintro ⟨h, hp⟩
        cases p with
        | nil => simpa using h
        | cons x p =>
          simp only [List.cons_append, List.cons.injEq] at h
          exact absurd (h.1 ▸ List.mem_cons_self) hp
    · simp only [splitColon, hc, if_false, Option.map_eq_some_iff]
      constructor
      · rintro ⟨⟨p', n'⟩, h, h'⟩
        simp only [Prod.mk.injEq] at h'
        obtain ⟨rfl, rfl⟩ := h'
        obtain ⟨h1, h2⟩ := ih.mp h
        exact ⟨by rw [h1]; rfl, by simp [h2, Ne.symm hc]⟩
      · rintro ⟨h, hp⟩
        cases p with
        | nil => simp at h; exact absurd h.1 hc
        | cons x p =>
          simp only [List.cons_append, List.cons.injEq] at h
          obtain ⟨rfl, h⟩ := h
          exact ⟨(p, n), ih.mpr ⟨h, fun hm => hp (List.mem_cons_of_mem _ hm)⟩, rfl⟩

/-- Only text without a colon cannot be split. -/
theorem splitColon_eq_none_iff {text : List Char} : splitColon text = none ↔ ':' ∉ text := by
  induction text with
  | nil => simp [splitColon]
  | cons c rest ih =>
    by_cases hc : c = ':'
    · simp [splitColon, hc]
    · simp [splitColon, hc, ih, Ne.symm hc]

/-- Prefixes without a colon are told apart, and so are the names behind them. -/
theorem prefixed_inj {p p' n n' : String} (h : ':' ∉ p.toList) (h' : ':' ∉ p'.toList) :
    prefixed p n = prefixed p' n' ↔ p = p' ∧ n = n' := by
  constructor
  · intro heq
    have hsplit := splitColon_eq_some_iff.mpr ⟨toList_prefixed p n, h⟩
    have hsplit' := splitColon_eq_some_iff.mpr ⟨toList_prefixed p' n', h'⟩
    rw [heq, hsplit', Option.some.injEq, Prod.mk.injEq] at hsplit
    exact ⟨String.toList_inj.mp hsplit.1.symm, String.toList_inj.mp hsplit.2.symm⟩
  · rintro ⟨rfl, rfl⟩
    rfl

/-- The three ways to write a member. -/
inductive Form where
  /-- Between angle brackets. -/
  | full
  /-- A prefix and a name around a colon. -/
  | abbreviated (nsPrefix name : String)
  /-- A name alone. -/
  | bare
deriving DecidableEq, Repr

/-- The form of a text.  Brackets are looked at before colons. -/
def Form.of (text : String) : Form :=
  if text.toList.head? = some '<' ∧ text.toList.getLast? = some '>' then .full
  else match splitColon text.toList with
    | some (p, n) => .abbreviated (String.ofList p) (String.ofList n)
    | none => .bare

/-- Whether a text is a full IRI. -/
def isFull (text : String) : Bool :=
  match Form.of text with
  | .full => true
  | _ => false

/-- Whether a text is an abbreviated IRI. -/
def isAbbreviated (text : String) : Bool :=
  match Form.of text with
  | .abbreviated .. => true
  | _ => false

/-- Whether a text is a bare id. -/
def isBare (text : String) : Bool :=
  match Form.of text with
  | .bare => true
  | _ => false

/-- What `memberIri` writes is read as a full IRI. -/
theorem Form.of_memberIri (ns name : String) : Form.of (memberIri ns name) = .full := by
  have h : (memberIri ns name).toList.head? = some '<' ∧
      (memberIri ns name).toList.getLast? = some '>' := by
    rw [toList_memberIri]
    simp [List.getLast?_cons, List.getLast?_append]
  simp [Form.of, h]

/-- A text is full when brackets stand at both ends, whatever is between them. -/
theorem isFull_iff {text : String} :
    isFull text ↔ text.toList.head? = some '<' ∧ text.toList.getLast? = some '>' := by
  by_cases h : text.toList.head? = some '<' ∧ text.toList.getLast? = some '>'
  · simp [isFull, Form.of, h]
  · rw [isFull, Form.of, if_neg h]
    cases splitColon text.toList <;> simp [h]

/-- A text is abbreviated when it is not full and has a colon, and the first colon ends the prefix. -/
theorem Form.of_eq_abbreviated_iff {text p n : String} : Form.of text = .abbreviated p n ↔
    ¬ isFull text ∧ text = prefixed p n ∧ ':' ∉ p.toList := by
  rw [isFull_iff, ← String.toList_inj, toList_prefixed, ← splitColon_eq_some_iff]
  unfold Form.of
  split
  · simp [*]
  · cases splitColon text.toList with
    | none => simp
    | some parts => simp [*, Prod.ext_iff, ← String.toList_inj]

/-- Text with a colon that is not full is abbreviated. -/
theorem Form.exists_of_eq_abbreviated {text : String} (h : ¬ isFull text) (hcolon : ':' ∈ text.toList) :
    ∃ p n, Form.of text = .abbreviated p n := by
  have hsplit : splitColon text.toList ≠ none := fun hn => splitColon_eq_none_iff.mp hn hcolon
  obtain ⟨⟨p, n⟩, hparts⟩ := Option.ne_none_iff_exists'.mp hsplit
  obtain ⟨htext, hp⟩ := splitColon_eq_some_iff.mp hparts
  refine ⟨String.ofList p, String.ofList n, Form.of_eq_abbreviated_iff.mpr ⟨h, ?_, ?_⟩⟩
  · rw [← String.toList_inj, toList_prefixed, String.toList_ofList, String.toList_ofList, htext]
  · rwa [String.toList_ofList]

/-- A name behind a readable prefix is read as just that, whatever the name holds. -/
theorem Form.of_prefixed {nsPrefix : String} (hp : Readable nsPrefix) (name : String) :
    Form.of (prefixed nsPrefix name) = .abbreviated nsPrefix name := by
  refine Form.of_eq_abbreviated_iff.mpr ⟨fun hfull => ?_, rfl, hp.1⟩
  have hfirst := (isFull_iff.mp hfull).1
  rw [toList_prefixed] at hfirst
  cases hl : nsPrefix.toList with
  | nil => simp [hl] at hfirst
  | cons c rest => exact hp.2 (by simpa [hl] using hfirst)

/-! ## Expansion -/

/-- The full IRI of an abbreviated text, where `namespaceOf` knows its prefix.  Any other text
    stands for itself. -/
def expand (namespaceOf : String → Option String) (text : String) : String :=
  match Form.of text with
  | .abbreviated p n =>
    match namespaceOf p with
    | some ns => memberIri ns n
    | none => text
  | _ => text

theorem expand_of_not_abbreviated {namespaceOf : String → Option String} {text : String}
    (h : ∀ p n, Form.of text ≠ .abbreviated p n) : expand namespaceOf text = text := by
  unfold expand
  split
  · rename_i p n hform
    exact absurd hform (h p n)
  · rfl

theorem expand_of_abbreviated {namespaceOf : String → Option String} {text p n : String}
    (h : Form.of text = .abbreviated p n) :
    expand namespaceOf text = (namespaceOf p).elim text (memberIri · n) := by
  simp only [expand, h]
  cases namespaceOf p <;> rfl

theorem expand_prefixed {namespaceOf : String → Option String} {nsPrefix ns : String}
    (hp : Readable nsPrefix) (h : namespaceOf nsPrefix = some ns) (name : String) :
    expand namespaceOf (prefixed nsPrefix name) = memberIri ns name := by
  rw [expand_of_abbreviated (Form.of_prefixed hp name), h, Option.elim_some]

theorem expand_memberIri (namespaceOf : String → Option String) (ns name : String) :
    expand namespaceOf (memberIri ns name) = memberIri ns name :=
  expand_of_not_abbreviated (by simp [Form.of_memberIri])

/-- What was expanded is not expanded again. -/
theorem expand_expand (namespaceOf : String → Option String) (text : String) :
    expand namespaceOf (expand namespaceOf text) = expand namespaceOf text := by
  by_cases h : ∃ p n, Form.of text = .abbreviated p n
  · obtain ⟨p, n, hform⟩ := h
    cases hns : namespaceOf p with
    | none =>
      have hsame : expand namespaceOf text = text := by
        rw [expand_of_abbreviated hform, hns, Option.elim_none]
      rw [hsame, hsame]
    | some ns => rw [expand_of_abbreviated hform, hns, Option.elim_some, expand_memberIri]
  · have hsame : expand namespaceOf text = text :=
      expand_of_not_abbreviated fun p n hform => h ⟨p, n, hform⟩
    rw [hsame, hsame]

/-! ## Running the definitions -/

example : namespaceIri "<http://example.com/dnd#>" = "http://example.com/dnd" := by decide +kernel
example : namespaceIri "/#" = "/" := by decide +kernel
example : Form.of "dnd:Monster" = .abbreviated "dnd" "Monster" := by decide +kernel

end OntologyView.Iri
