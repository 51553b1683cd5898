import FieldAccess.Proofs.TypeGrammar

/-! Types and their texts. A type that was read from some text is read back from its own. The others
are those with a nominal name that no text can hold, or that means something else there. -/
namespace FieldAccess.TypeDesc

/-- A name that stands for a nominal type when it is read. -/
structure IsNominal (name : String) : Prop where
  ident : IsIdent name
  notVoid : name ≠ "void"
  notAny : name ≠ "any"
  notBoxed : name ≠ boxedName
  notPrimitive : Primitive.ofName? name = none

mutual

/-- All nominal names in the type can be read. -/
def Readable : TypeDesc → Prop
  | named name args => IsNominal name ∧ AllReadable args
  | _ => True

def AllReadable : List TypeDesc → Prop
  | [] => True
  | t :: ts => t.Readable ∧ AllReadable ts

end

theorem readable_ofName {name : String} : (ofName name).Readable ↔ IsNominal name := by
  simp [ofName, Readable, AllReadable]

theorem Readable.erasure {t : TypeDesc} (h : t.Readable) : t.erasure.Readable := by
  cases t with
  | named name args =>
    rw [Readable] at h
    exact readable_ofName.mpr h.1
  | _ => exact h

theorem Readable.toBoxed {t : TypeDesc} (h : t.Readable) : t.toBoxed.Readable := by
  cases t with
  | primitive p => simp [TypeDesc.toBoxed, Readable]
  | _ => exact h

theorem isIdent_primitive (p : Primitive) : IsIdent p.name := by
  cases p <;> exact ⟨by decide, List.all_eq_true.mp (by decide)⟩

theorem isIdent_void : IsIdent "void" := ⟨by decide, List.all_eq_true.mp (by decide)⟩

theorem isIdent_any : IsIdent "any" := ⟨by decide, List.all_eq_true.mp (by decide)⟩

theorem isIdent_boxed : IsIdent boxedName := ⟨by decide, List.all_eq_true.mp (by decide)⟩

/-! ### From texts to tokens -/

mutual

def tokens : TypeDesc → List Token
  | void => [.ident "void"]
  | any => [.ident "any"]
  | primitive p => [.ident p.name]
  | boxed p => [.ident boxedName, .openAngle, .ident p.name, .closeAngle]
  | named name [] => [.ident name]
  | named name (a :: as) =>
    .ident name :: .openAngle :: (a.tokens ++ argsTokens as ++ [.closeAngle])

/-- The arguments after the first, each behind a comma. -/
def argsTokens : List TypeDesc → List Token
  | [] => []
  | a :: as => .comma :: (a.tokens ++ argsTokens as)

end

theorem apart_argsText (ts : List TypeDesc) (rest : List Char) :
    Apart ((argsText ts).toList ++ '>' :: rest) := by
  cases ts with
  | nil => exact apart_cons (by decide) rest
  | cons t ts =>
    simp only [argsText, String.toList_append, List.append_assoc]
    exact apart_cons (by decide) _

mutual

/-- The text of a type splits into its tokens, whatever comes behind. -/
theorem splits_text :
    (t : TypeDesc) → t.Readable → {rest : List Char} → {ts : List Token} → Apart rest →
    Splits rest ts → Splits (t.text.toList ++ rest) (t.tokens ++ ts)
  | void, _, _, _, apart, h => .ident isIdent_void apart h
  | any, _, _, _, apart, h => .ident isIdent_any apart h
  | primitive p, _, _, _, apart, h => .ident (isIdent_primitive p) apart h
  | boxed p, _, rest, _, _, h => by
    have hclose := Splits.ident (isIdent_primitive p) (apart_cons (by decide) rest) (.closeAngle h)
    simp only [text, String.toList_append, List.append_assoc]
    exact .ident isIdent_boxed (apart_cons (by decide) _) (.openAngle hclose)
  | named name [], hr, _, _, apart, h => by
    rw [Readable] at hr
    exact .ident hr.1.ident apart h
  | named name (a :: as), hr, rest, _, _, h => by
    rw [Readable, AllReadable] at hr
    obtain ⟨hname, ha, has⟩ := hr
    have hargs := splits_text a ha (apart_argsText as rest) (splits_argsText as has (.closeAngle h))
    simp only [text, tokens, String.toList_append, List.append_assoc, List.cons_append,
      List.nil_append]
    exact .ident hname.ident (apart_cons (by decide) _) (.openAngle hargs)

theorem splits_argsText :
    (as : List TypeDesc) → AllReadable as → {rest : List Char} → {ts : List Token} →
    Splits ('>' :: rest) ts → Splits ((argsText as).toList ++ '>' :: rest) (argsTokens as ++ ts)
  | [], _, _, _, h => h
  | a :: as, hr, rest, _, h => by
    rw [AllReadable] at hr
    have hargs := splits_text a hr.1 (apart_argsText as rest) (splits_argsText as hr.2 h)
    simp only [argsText, argsTokens, String.toList_append, List.append_assoc, List.cons_append]
    exact .comma (.blank (by decide) hargs)

end

/-! ### From tokens to types -/

theorem IsNominal.means {name : String} (h : IsNominal name) (args : List TypeDesc) :
    Means name args (named name args) :=
  .named args h.notVoid h.notAny h.notBoxed (Primitive.ofName?_eq_none_iff.mp h.notPrimitive)

open Phrase in
mutual

theorem exists_phrase :
    (t : TypeDesc) → t.Readable → ∃ d : Phrase, d.tokens = t.tokens ∧ d.Denotes t
  | void, _ => ⟨.bare "void", rfl, .void⟩
  | any, _ => ⟨.bare "any", rfl, .any⟩
  | primitive p, _ => ⟨.bare p.name, rfl, .primitive p⟩
  | boxed p, _ =>
    ⟨.applied boxedName (.bare p.name) [], rfl, .primitive p, [], .primitive p, rfl, .boxed p⟩
  | named name [], hr => by
    rw [Readable] at hr
    exact ⟨.bare name, rfl, hr.1.means []⟩
  | named name (a :: as), hr => by
    rw [Readable, AllReadable] at hr
    obtain ⟨hname, ha, has⟩ := hr
    obtain ⟨d, hd, hda⟩ := exists_phrase a ha
    obtain ⟨ds, hds, hdas⟩ := exists_phrases as has
    refine ⟨.applied name d ds, ?_, a, as, hda, hdas, hname.means (a :: as)⟩
    simp [Phrase.tokens, tokens, hd, hds]

theorem exists_phrases : (as : List TypeDesc) → AllReadable as →
    ∃ ds : List Phrase, othersTokens ds = argsTokens as ∧ AllDenote ds as
  | [], _ => ⟨[], rfl, rfl⟩
  | a :: as, hr => by
    rw [AllReadable] at hr
    obtain ⟨d, hd, hda⟩ := exists_phrase a hr.1
    obtain ⟨ds, hds, hdas⟩ := exists_phrases as hr.2
    refine ⟨d :: ds, ?_, a, as, rfl, hda, hdas⟩
    simp [othersTokens, argsTokens, hd, hds]

end

/-- Reading the text of a type whose names can be read gives the type back. -/
theorem parse?_text {t : TypeDesc} (h : t.Readable) : parse? t.text = some t := by
  obtain ⟨d, hd, hdt⟩ := exists_phrase t h
  have hsplits := splits_text t h (by rintro c ⟨⟩) .done
  rw [List.append_nil, List.append_nil, ← hd] at hsplits
  exact parse?_eq_some_iff.mpr (parse_eq_ok_iff.mpr ⟨d, hsplits, hdt⟩)

/-! ### What can be read -/

/-- The names among the tokens are names of a text. -/
def Names (ts : List Token) : Prop := ∀ name, .ident name ∈ ts → IsIdent name

theorem names_append {ts us : List Token} : Names (ts ++ us) ↔ Names ts ∧ Names us := by
  simp only [Names, List.mem_append, or_imp, forall_and]

theorem names_cons {t : Token} {ts : List Token} :
    Names (t :: ts) ↔ (∀ name, t = .ident name → IsIdent name) ∧ Names ts := by
  simp only [Names, List.mem_cons, or_imp, forall_and, eq_comm]

theorem Splits.names {cs : List Char} {ts : List Token} (h : Splits cs ts) : Names ts := by
  induction h with
  | done => simp [Names]
  | blank _ _ ih => exact ih
  | openAngle _ ih => exact names_cons.mpr ⟨by simp, ih⟩
  | closeAngle _ ih => exact names_cons.mpr ⟨by simp, ih⟩
  | comma _ ih => exact names_cons.mpr ⟨by simp, ih⟩
  | ident hname _ _ ih =>
    refine names_cons.mpr ⟨?_, ih⟩
    rintro name ⟨⟩
    exact hname

theorem Means.readable {name : String} (hname : IsIdent name) {args : List TypeDesc}
    (hargs : AllReadable args) {t : TypeDesc} (h : Means name args t) : t.Readable := by
  cases h with
  | named _ hvoid hany hboxed hprimitive =>
    rw [Readable]
    exact ⟨⟨hname, hvoid, hany, hboxed, Primitive.ofName?_eq_none_iff.mpr hprimitive⟩, hargs⟩
  | _ => simp [Readable]

open Phrase in
mutual

/-- A phrase with names of a text stands for a readable type, if for any. -/
theorem readable_of_denotes :
    (d : Phrase) → Names d.tokens → {t : TypeDesc} → d.Denotes t → t.Readable
  | bare name, names, _, h => by
    have hname := (names_cons.mp names).1 name rfl
    exact Means.readable hname (by simp [AllReadable]) h
  | applied name first others, names, _, h => by
    obtain ⟨u, us, hu, hus, h⟩ := h
    rw [Phrase.tokens, names_cons, names_cons, names_append, names_append] at names
    obtain ⟨hname, -, hfirst, hothers, -⟩ := names
    have hargs : AllReadable (u :: us) := by
      rw [AllReadable]
      exact ⟨readable_of_denotes first hfirst hu, readable_of_allDenote others hothers hus⟩
    exact h.readable (hname name rfl) hargs

theorem readable_of_allDenote :
    (ds : List Phrase) → Names (othersTokens ds) → {us : List TypeDesc} →
    AllDenote ds us → AllReadable us
  | [], _, _, h => by
    cases h
    simp [AllReadable]
  | d :: ds, names, _, h => by
    obtain ⟨v, vs, rfl, hv, hvs⟩ := h
    rw [othersTokens, names_cons, names_append] at names
    rw [AllReadable]
    exact ⟨readable_of_denotes d names.2.1 hv, readable_of_allDenote ds names.2.2 hvs⟩

end

/-- Some text stands for the type. -/
def Parsed (t : TypeDesc) : Prop := ∃ s, parse? s = some t

theorem Parsed.readable {t : TypeDesc} (h : t.Parsed) : t.Readable := by
  obtain ⟨s, hs⟩ := h
  obtain ⟨d, hsplits, hd⟩ := parse_eq_ok_iff.mp (parse?_eq_some_iff.mp hs)
  exact readable_of_denotes d hsplits.names hd

theorem parsed_iff_readable {t : TypeDesc} : t.Parsed ↔ t.Readable :=
  ⟨Parsed.readable, fun h => ⟨t.text, parse?_text h⟩⟩

/-- Exactly the types that some text stands for are read back from their own. -/
theorem parse?_text_iff {t : TypeDesc} : parse? t.text = some t ↔ t.Parsed :=
  ⟨fun h => ⟨t.text, h⟩, fun h => parse?_text h.readable⟩

/-- A text read, and written as types are. -/
def tidy (s : String) : Except ParseError String := text <$> parse s

/-- A type that was read is read back from its own text. These are the types with readable names
only; no two of them are written alike, and a text that was written once stays as it is. -/
theorem written_types_read_back :
    (∀ (s : String) (t : TypeDesc), parse s = .ok t → parse t.text = .ok t) ∧
      (∀ t : TypeDesc, t.Readable → parse t.text = .ok t) ∧
      (∀ t : TypeDesc, t.Readable ↔ ∃ s, parse s = .ok t) ∧
      (∀ (s s' : String) (t t' : TypeDesc), parse s = .ok t → parse s' = .ok t' →
        t.text = t'.text → t = t') ∧
      ∀ s : String, (tidy s >>= tidy) = tidy s := by
  have readable_iff (t : TypeDesc) : t.Readable ↔ ∃ s, parse s = .ok t := by
    simp only [← parsed_iff_readable, Parsed, parse?_eq_some_iff]
  have back {t : TypeDesc} (h : t.Readable) : parse t.text = .ok t :=
    parse?_eq_some_iff.mp (parse?_text h)
  have again {s : String} {t : TypeDesc} (h : parse s = .ok t) : parse t.text = .ok t :=
    back ((readable_iff t).mpr ⟨s, h⟩)
  refine ⟨fun s t => again, fun t => back, readable_iff, ?_, ?_⟩
  · intro s s' t t' ht ht' htext
    have hsame := again ht
    rw [htext, again ht'] at hsame
    exact (Except.ok.inj hsame).symm
  · intro s
    cases h : parse s with
    | error e => simp only [tidy, h]; rfl
    | ok t =>
      have htidy : tidy s = .ok t.text := by rw [tidy, h]; rfl
      rw [htidy]
      exact congrArg (text <$> ·) (again h)

/-- Boxed arguments, a dotted name and stray blanks. -/
theorem blanks_of_index_tidied :
    let t : TypeDesc := .named "shop.Index" [.boxed .int64, .named "list" [.string, .any]]
    parse " shop.Index<boxed < int64>,list<string\t,any> >" = .ok t ∧
      t.text = "shop.Index<boxed<int64>, list<string, any>>" ∧
      parse "shop.Index<boxed<int64>, list<string, any>>" = .ok t := by
  intro t
  have hread : parse " shop.Index<boxed < int64>,list<string\t,any> >" = .ok t :=
    parse?_eq_some_iff.mp (by decide +kernel)
  have htext : t.text = "shop.Index<boxed<int64>, list<string, any>>" := by decide +kernel
  have hback := written_types_read_back.1 _ t hread
  rw [htext] at hback
  exact ⟨hread, htext, hback⟩

end FieldAccess.TypeDesc
