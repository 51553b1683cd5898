import FieldAccess.Proofs.Successes
import FieldAccess.TypeDesc.Parser
import Mathlib.Tactic.SplitIfs

/-! The grammar of type texts. A text is read exactly when it splits into tokens and the tokens have
a derivation in `type ::= ident | ident < type (, type)* >` that stands for a type. There is at most
one derivation, and blanks between tokens play no part. -/
namespace FieldAccess

namespace Primitive

theorem ofName?_eq_none_iff {name : String} :
    ofName? name = none ↔ ∀ p : Primitive, name ≠ p.name := by
  constructor
  · rintro h p rfl
    rw [ofName?_name] at h
    cases h
  · intro h
    rw [ofName?, List.find?_eq_none]
    intro p _ hp
    exact h p (eq_of_beq hp).symm

theorem eq_name_of_ofName? {name : String} {p : Primitive}
    (h : ofName? name = some p) : name = p.name := by
  have hp := List.find?_some h
  exact (eq_of_beq hp).symm

end Primitive

namespace TypeDesc

/-! ### Texts and tokens -/

/-- A name as it stands in a text: at least one character, and name characters only. -/
def IsIdent (name : String) : Prop := name ≠ "" ∧ ∀ c ∈ name.toList, Token.isNameChar c = true

/-- No name goes on at the front of the text. -/
def Apart (cs : List Char) : Prop := ∀ c ∈ cs.head?, Token.isNameChar c = false

theorem apart_cons {c : Char} (h : Token.isNameChar c = false) (cs : List Char) :
    Apart (c :: cs) := by
  rintro d ⟨⟩
  exact h

/-- Tokens of a text: its names are runs of name characters that go as far as they can, blanks may
stand before and after every token, and there is nothing else. -/
inductive Splits : List Char → List Token → Prop where
  | done : Splits [] []
  | blank {c : Char} {cs : List Char} {ts : List Token} :
    Text.isBlank c = true → Splits cs ts → Splits (c :: cs) ts
  | openAngle {cs : List Char} {ts : List Token} :
      Splits cs ts → Splits ('<' :: cs) (.openAngle :: ts)
  | closeAngle {cs : List Char} {ts : List Token} :
      Splits cs ts → Splits ('>' :: cs) (.closeAngle :: ts)
  | comma {cs : List Char} {ts : List Token} : Splits cs ts → Splits (',' :: cs) (.comma :: ts)
  | ident {name : String} {cs : List Char} {ts : List Token} :
    IsIdent name → Apart cs → Splits cs ts → Splits (name.toList ++ cs) (.ident name :: ts)

namespace Token

/-- Code points of all blanks. -/
def blankCodes : List Nat :=
  [9, 10, 11, 12, 13, 0x20, 0x85, 0xA0, 0x1680, 0x2000, 0x2001, 0x2002, 0x2003, 0x2004, 0x2005,
    0x2006, 0x2007, 0x2008, 0x2009, 0x200A, 0x2028, 0x2029, 0x202F, 0x205F, 0x3000]

theorem mem_blankCodes {c : Char} (h : Text.isBlank c = true) : c.toNat ∈ blankCodes := by
  simp only [Text.isBlank, Bool.or_eq_true, Bool.and_eq_true, decide_eq_true_eq, beq_iff_eq] at h
  simp only [blankCodes, List.mem_cons, List.not_mem_nil]
  omega

/-- No blank is a letter or a number in any script. -/
theorem isNameChar_of_isBlank {c : Char} (h : Text.isBlank c = true) : isNameChar c = false := by
  have hall : ∀ n ∈ blankCodes, isNameChar (Char.ofNat n) = false := by decide +kernel
  have hc := hall c.toNat (mem_blankCodes h)
  rwa [Char.ofNat_toNat] at hc

theorem close_nil (ts : List Token) : close [] ts = ts := rfl

/-- Where no name goes on, the pending one is closed. -/
theorem scan_apart (pending : List Char) {cs : List Char} (apart : Apart cs) :
    scan pending cs = close pending <$> scan [] cs := by
  cases cs with
  | nil => rfl
  | cons c cs =>
    have hc : isNameChar c = false := apart c rfl
    simp only [scan, hc, Bool.false_eq_true, if_false]
    split_ifs
    · simp only [Functor.map_map, close_nil]
    · simp only [Functor.map_map, close_nil]
    · simp only [Functor.map_map, close_nil]
    · simp only [Functor.map_map, close_nil]
    · rfl

theorem scan_chars {cs : List Char} (h : ∀ c ∈ cs, isNameChar c = true) (pending rest : List Char) :
    scan pending (cs ++ rest) = scan (cs.reverse ++ pending) rest := by
  induction cs generalizing pending with
  | nil => rfl
  | cons c cs ih =>
    have hc := h c List.mem_cons_self
    rw [List.cons_append, scan, if_pos hc, ih fun d hd => h d (List.mem_cons_of_mem _ hd)]
    simp

theorem scan_ident {name : String} (h : IsIdent name) {rest : List Char} (apart : Apart rest) :
    scan [] (name.toList ++ rest) = (ident name :: ·) <$> scan [] rest := by
  obtain ⟨hne, hchars⟩ := h
  have hclose : close name.toList.reverse = (ident name :: ·) := by
    funext ts
    cases hrev : name.toList.reverse with
    | nil => exact absurd (String.toList_eq_nil_iff.mp (List.reverse_eq_nil_iff.mp hrev)) hne
    | cons c cs => rw [close, ← hrev, List.reverse_reverse, String.ofList_toList]
  rw [scan_chars hchars, List.append_nil, scan_apart _ apart, hclose]

theorem scan_openAngle (cs : List Char) :
    scan [] ('<' :: cs) = (openAngle :: ·) <$> scan [] cs := by
  rw [scan, if_neg (by decide), if_pos rfl]
  rfl

theorem scan_closeAngle (cs : List Char) :
    scan [] ('>' :: cs) = (closeAngle :: ·) <$> scan [] cs := by
  rw [scan, if_neg (by decide), if_neg (by decide), if_pos rfl]
  rfl

theorem scan_comma (cs : List Char) : scan [] (',' :: cs) = (comma :: ·) <$> scan [] cs := by
  rw [scan, if_neg (by decide), if_neg (by decide), if_neg (by decide), if_pos rfl]
  rfl

theorem scan_blank {c : Char} (h : Text.isBlank c = true) (cs : List Char) :
    scan [] (c :: cs) = scan [] cs := by
  have hne : ∀ d : Char, Text.isBlank d = false → c ≠ d := by
    rintro d hd rfl
    rw [h] at hd
    cases hd
  rw [scan, isNameChar_of_isBlank h, if_neg Bool.false_ne_true, if_neg (hne '<' rfl),
    if_neg (hne '>' rfl), if_neg (hne ',' rfl), if_pos h]
  exact id_map _

/-- A pending name stands before what follows it. -/
theorem splits_close {pending cs : List Char} {ts : List Token}
    (hp : ∀ c ∈ pending, isNameChar c = true) (apart : Apart cs) (h : Splits cs ts) :
    Splits (pending.reverse ++ cs) (close pending ts) := by
  cases pending with
  | nil => exact h
  | cons c pending =>
    have hident : IsIdent (String.ofList (c :: pending).reverse) := by
      constructor
      · intro hempty
        have := congrArg String.toList hempty
        simp at this
      · intro d hd
        rw [String.toList_ofList, List.mem_reverse] at hd
        exact hp d hd
    have := Splits.ident hident apart h
    rwa [String.toList_ofList] at this

theorem splits_of_scan {cs pending : List Char} (hp : ∀ c ∈ pending, isNameChar c = true)
    {ts : List Token} (h : scan pending cs = .ok ts) : Splits (pending.reverse ++ cs) ts := by
  induction cs generalizing pending ts with
  | nil =>
    cases h
    exact splits_close hp (by rintro c ⟨⟩) .done
  | cons c cs ih =>
    have rest : ∀ {us}, scan [] cs = .ok us → Splits cs us := fun hus => ih (by simp) hus
    by_cases hc : isNameChar c = true
    · rw [scan, if_pos hc] at h
      have hpending : ∀ d ∈ c :: pending, isNameChar d = true := List.forall_mem_cons.mpr ⟨hc, hp⟩
      simpa using ih hpending h
    · have apart := apart_cons (Bool.eq_false_iff.mpr hc) cs
      rw [scan, if_neg hc] at h
      split_ifs at h with hopen hclose hcomma hblank
      · obtain ⟨us, hus, rfl⟩ := exists_of_map_eq_ok h
        subst hopen
        exact splits_close hp apart (.openAngle (rest hus))
      · obtain ⟨us, hus, rfl⟩ := exists_of_map_eq_ok h
        subst hclose
        exact splits_close hp apart (.closeAngle (rest hus))
      · obtain ⟨us, hus, rfl⟩ := exists_of_map_eq_ok h
        subst hcomma
        exact splits_close hp apart (.comma (rest hus))
      · obtain ⟨us, hus, rfl⟩ := exists_of_map_eq_ok h
        exact splits_close hp apart (.blank hblank (rest hus))

theorem scan_of_splits {cs : List Char} {ts : List Token} (h : Splits cs ts) :
    scan [] cs = .ok ts := by
  induction h with
  | done => rfl
  | blank hc _ ih => rw [scan_blank hc, ih]
  | openAngle _ ih => rw [scan_openAngle, ih]; rfl
  | closeAngle _ ih => rw [scan_closeAngle, ih]; rfl
  | comma _ ih => rw [scan_comma, ih]; rfl
  | ident hname apart _ ih => rw [scan_ident hname apart, ih]; rfl

theorem ofText_eq_ok_iff {s : String} {ts : List Token} : ofText s = .ok ts ↔ Splits s.toList ts :=
  ⟨splits_of_scan (List.forall_mem_nil _), scan_of_splits⟩

end Token

/-! ### Blanks between tokens -/

/-- Where a blank may be put in or taken out: no name goes on from one text into the other. -/
def Parted (before after : List Char) : Prop :=
  (∀ c ∈ before.getLast?, Token.isNameChar c = false) ∨ Apart after

namespace Token

theorem scan_blanks {blanks : List Char} (h : ∀ c ∈ blanks, Text.isBlank c = true)
    (cs : List Char) : scan [] (blanks ++ cs) = scan [] cs := by
  induction blanks with
  | nil => rfl
  | cons c blanks ih =>
    rw [List.cons_append, scan_blank (h c List.mem_cons_self), ih fun d hd =>
      h d (List.mem_cons_of_mem _ hd)]

/-- Texts that scan alike behind any unfinished name do so behind any text. -/
theorem scan_append_congr {cs ds : List Char} (h : ∀ pending, scan pending cs = scan pending ds)
    (before pending : List Char) : scan pending (before ++ cs) = scan pending (before ++ ds) := by
  induction before generalizing pending with
  | nil => exact h pending
  | cons c before ih => simp only [List.cons_append, scan, ih]

theorem apart_blanks {blanks : List Char} (h : ∀ c ∈ blanks, Text.isBlank c = true) {cs : List Char}
    (apart : Apart cs) : Apart (blanks ++ cs) := by
  cases blanks with
  | nil => exact apart
  | cons c blanks => exact apart_cons (isNameChar_of_isBlank (h c List.mem_cons_self)) _

/-- Blanks between tokens do not change the tokens, nor the character that is none. -/
theorem scan_respaced {before blanks after : List Char} (h : ∀ c ∈ blanks, Text.isBlank c = true)
    (parted : Parted before after) :
    scan [] (before ++ blanks ++ after) = scan [] (before ++ after) := by
  rw [List.append_assoc]
  rcases parted with ends | apart
  · rcases List.eq_nil_or_concat before with rfl | ⟨init, c, rfl⟩
    · exact scan_blanks h after
    · -- after the last character before the blanks no name is pending
      have hc : isNameChar c = false := ends c (by simp)
      rw [List.concat_eq_append, List.append_assoc, List.append_assoc]
      refine scan_append_congr (fun pending => ?_) init []
      simp only [List.singleton_append, scan, hc, Bool.false_eq_true, if_false, scan_blanks h after]
  · refine scan_append_congr (fun pending => ?_) before []
    rw [scan_apart pending (apart_blanks h apart), scan_apart pending apart, scan_blanks h after]

end Token

/-! ### Phrases -/

/-- A type as the grammar derives it: a name alone, or a name with what stands between its
brackets. -/
inductive Phrase where
  | bare (name : String)
  | applied (name : String) (first : Phrase) (others : List Phrase)

namespace Phrase

mutual

/-- The tokens that are derived. -/
def tokens : Phrase → List Token
  | bare name => [.ident name]
  | applied name first others =>
    .ident name :: .openAngle :: (first.tokens ++ (othersTokens others ++ [.closeAngle]))

/-- The arguments after the first, each behind a comma. -/
def othersTokens : List Phrase → List Token
  | [] => []
  | d :: ds => .comma :: (d.tokens ++ othersTokens ds)

end

end Phrase

/-- What a name with arguments stands for. -/
inductive Means : String → List TypeDesc → TypeDesc → Prop where
  | void : Means "void" [] .void
  | any : Means "any" [] .any
  | primitive (p : Primitive) : Means p.name [] (.primitive p)
  | boxed (p : Primitive) : Means boxedName [.primitive p] (.boxed p)
  | named {name : String} (args : List TypeDesc) : name ≠ "void" → name ≠ "any" → name ≠ boxedName →
    (∀ p : Primitive, name ≠ p.name) → Means name args (.named name args)

namespace Phrase

mutual

/-- The type that a phrase stands for; some stand for none. -/
def Denotes : Phrase → TypeDesc → Prop
  | bare name, t => Means name [] t
  | applied name first others, t =>
    ∃ u us, first.Denotes u ∧ AllDenote others us ∧ Means name (u :: us) t

def AllDenote : List Phrase → List TypeDesc → Prop
  | [], us => us = []
  | d :: ds, us => ∃ v vs, us = v :: vs ∧ d.Denotes v ∧ AllDenote ds vs

end

end Phrase

/-- The tokens do not go on with arguments. -/
def Ends (ts : List Token) : Prop := ts.head? ≠ some .openAngle

theorem ends_nil : Ends [] := by simp [Ends]

theorem ends_others (ds : List Phrase) (rest : List Token) :
    Ends (Phrase.othersTokens ds ++ .closeAngle :: rest) := by
  cases ds <;> simp [Ends, Phrase.othersTokens]

/-! ### At most one phrase -/

namespace Phrase

mutual

theorem tokens_inj : (d e : Phrase) → {rest rest' : List Token} → Ends rest → Ends rest' →
    d.tokens ++ rest = e.tokens ++ rest' → d = e ∧ rest = rest'
  | bare name, bare name', _, _, _, _, h => by
    simp only [tokens, List.cons_append, List.nil_append, List.cons.injEq, Token.ident.injEq] at h
    obtain ⟨rfl, rfl⟩ := h
    exact ⟨rfl, rfl⟩
  | bare name, applied name' first' others', _, _, ends, _, h => by
    simp only [tokens, List.cons_append, List.nil_append, List.cons.injEq] at h
    exact absurd (by rw [h.2]; rfl) ends
  | applied name first others, bare name', _, _, _, ends, h => by
    simp only [tokens, List.cons_append, List.nil_append, List.cons.injEq] at h
    exact absurd (by rw [← h.2]; rfl) ends
  | applied name first others, applied name' first' others', rest, rest', _, _, h => by
    simp only [tokens, List.cons_append, List.append_assoc, List.nil_append, List.cons.injEq,
      Token.ident.injEq, true_and] at h
    obtain ⟨rfl, hargs⟩ := h
    obtain ⟨rfl, hothers⟩ :=
      tokens_inj first first' (ends_others others rest) (ends_others others' rest') hargs
    obtain ⟨rfl, rfl⟩ := othersTokens_inj others others' hothers
    exact ⟨rfl, rfl⟩

theorem othersTokens_inj : (ds es : List Phrase) → {rest rest' : List Token} →
    othersTokens ds ++ .closeAngle :: rest = othersTokens es ++ .closeAngle :: rest' →
    ds = es ∧ rest = rest'
  | [], [], _, _, h => by
    simp only [othersTokens, List.nil_append, List.cons.injEq, true_and] at h
    exact ⟨rfl, h⟩
  | [], e :: es, _, _, h => by simp [othersTokens] at h
  | d :: ds, [], _, _, h => by simp [othersTokens] at h
  | d :: ds, e :: es, rest, rest', h => by
    simp only [othersTokens, List.cons_append, List.append_assoc, List.cons.injEq, true_and] at h
    obtain ⟨rfl, hothers⟩ := tokens_inj d e (ends_others ds rest) (ends_others es rest') h
    obtain ⟨rfl, rfl⟩ := othersTokens_inj ds es hothers
    exact ⟨rfl, rfl⟩

end

theorem eq_of_tokens_eq {d e : Phrase} (h : d.tokens = e.tokens) : d = e :=
  (tokens_inj d e ends_nil ends_nil (by rw [h])).1

end Phrase

/-! ### The parser -/

theorem means_of_build {name : String} {args : List TypeDesc} {t : TypeDesc}
    (h : build name args = .ok t) : Means name args t := by
  unfold build at h
  by_cases hvoid : name = "void"
  · rw [if_pos hvoid] at h
    split_ifs at h with hargs
    cases h
    rw [hvoid, List.isEmpty_iff.mp hargs]
    exact .void
  by_cases hany : name = "any"
  · rw [if_neg hvoid, if_pos hany] at h
    split_ifs at h with hargs
    cases h
    rw [hany, List.isEmpty_iff.mp hargs]
    exact .any
  by_cases hboxed : name = boxedName
  · rw [if_neg hvoid, if_neg hany, if_pos hboxed] at h
    split at h
    · cases h
      rw [hboxed]
      exact .boxed _
    · cases h
  rw [if_neg hvoid, if_neg hany, if_neg hboxed] at h
  cases hp : Primitive.ofName? name with
  | none =>
    rw [hp] at h
    cases h
    exact .named args hvoid hany hboxed (Primitive.ofName?_eq_none_iff.mp hp)
  | some p =>
    simp only [hp] at h
    split_ifs at h with hargs
    cases h
    rw [Primitive.eq_name_of_ofName? hp, List.isEmpty_iff.mp hargs]
    exact .primitive p

theorem build_eq_ok_iff {name : String} {args : List TypeDesc} {t : TypeDesc} :
    build name args = .ok t ↔ Means name args t := by
  refine ⟨means_of_build, fun h => ?_⟩
  cases h with
  | void => rfl
  | any => rfl
  | primitive p => cases p <;> rfl
  | boxed p => rfl
  | named args hvoid hany hboxed hprimitive =>
    simp only [build, if_neg hvoid, if_neg hany, if_neg hboxed,
      Primitive.ofName?_eq_none_iff.mpr hprimitive]

theorem parseType_ident (name : String) (fuel : Nat) {rest : List Token} (ends : Ends rest) :
    parseType (fuel + 1) (.ident name :: rest) = (fun t => (t, rest)) <$> build name [] := by
  rw [parseType]
  · cases build name [] <;> rfl
  · rintro ts rfl
    exact ends rfl

open Phrase

mutual

/-- What is read was derived, and nothing of it is left. -/
theorem exists_of_parseType :
    (fuel : Nat) → {ts : List Token} → {t : TypeDesc} → {rest : List Token} →
    parseType fuel ts = .ok (t, rest) → ∃ d : Phrase, ts = d.tokens ++ rest ∧ d.Denotes t
  | 0, _, _, _, h => by cases h
  | fuel + 1, ts, t, rest, h => by
    cases ts with
    | nil => cases h
    | cons tok ts =>
      cases tok with
      | openAngle => cases h
      | closeAngle => cases h
      | comma => cases h
      | ident name =>
        by_cases ends : Ends ts
        · rw [parseType_ident _ _ ends] at h
          obtain ⟨u, hu, h⟩ := exists_of_map_eq_ok h
          cases h
          exact ⟨.bare name, rfl, build_eq_ok_iff.mp hu⟩
        · obtain ⟨us, rfl⟩ := List.head?_eq_some_iff.mp (Decidable.not_not.mp ends)
          rw [parseType] at h
          obtain ⟨⟨args, rest'⟩, hargs, h⟩ := exists_of_bind_eq_ok h
          obtain ⟨u, hu, h⟩ := exists_of_bind_eq_ok h
          cases h
          obtain ⟨first, others, hts, v, vs, rfl, hv, hvs⟩ := exists_of_parseArgs fuel hargs
          refine ⟨.applied name first others, ?_, v, vs, hv, hvs, build_eq_ok_iff.mp hu⟩
          simp [tokens, hts]

theorem exists_of_parseArgs : (fuel : Nat) → {ts : List Token} → {args : List TypeDesc} →
    {rest : List Token} → parseArgs fuel ts = .ok (args, rest) →
    ∃ first others, ts = first.tokens ++ (othersTokens others ++ .closeAngle :: rest) ∧
      AllDenote (first :: others) args
  | 0, _, _, _, h => by cases h
  | fuel + 1, ts, args, rest, h => by
    rw [parseArgs] at h
    obtain ⟨⟨t, rest'⟩, ht, h⟩ := exists_of_bind_eq_ok h
    obtain ⟨first, hts, hfirst⟩ := exists_of_parseType fuel ht
    simp only at h
    split at h
    · obtain ⟨⟨args', rest''⟩, hargs, h⟩ := exists_of_bind_eq_ok h
      cases h
      obtain ⟨second, others, hrest, hothers⟩ := exists_of_parseArgs fuel hargs
      exact ⟨first, second :: others, by simp [othersTokens, hts, hrest], t, args', rfl,
        hfirst, hothers⟩
    · cases h
      exact ⟨first, [], hts, t, [], rfl, hfirst, rfl⟩
    · cases h

end

mutual

/-- What is derived is read, whatever comes behind. -/
theorem parseType_of_denotes : (d : Phrase) → {t : TypeDesc} → d.Denotes t → (fuel : Nat) →
    d.tokens.length < fuel → (rest : List Token) → Ends rest →
    parseType fuel (d.tokens ++ rest) = .ok (t, rest)
  | _, _, _, 0, h, _, _ => absurd h (Nat.not_lt_zero _)
  | bare name, t, ht, fuel + 1, _, rest, ends => by
    have hbuild : build name [] = .ok t := build_eq_ok_iff.mpr ht
    rw [tokens, List.singleton_append, parseType_ident name fuel ends, hbuild]
    rfl
  | applied name first others, t, ht, fuel + 1, h, rest, _ => by
    obtain ⟨u, us, hu, hus, ht⟩ := ht
    simp only [tokens, List.length_cons] at h
    have hargs := parseArgs_of_denotes first others hu hus fuel (by omega) rest
    simp only [tokens, List.cons_append, List.append_assoc, List.nil_append, parseType, hargs]
    simp only [bind, Except.bind, build_eq_ok_iff.mpr ht]
    rfl

theorem parseArgs_of_denotes : (d : Phrase) → (ds : List Phrase) → {t : TypeDesc} →
    {ts : List TypeDesc} → d.Denotes t → AllDenote ds ts → (fuel : Nat) →
    (d.tokens ++ (othersTokens ds ++ [Token.closeAngle])).length < fuel → (rest : List Token) →
    parseArgs fuel (d.tokens ++ (othersTokens ds ++ .closeAngle :: rest)) = .ok (t :: ts, rest)
  | _, _, _, _, _, _, 0, h, _ => absurd h (Nat.not_lt_zero _)
  | d, [], t, ts, hd, hts, fuel + 1, h, rest => by
    cases hts
    simp only [othersTokens, List.length_append, List.length_cons] at h
    have ht := parseType_of_denotes d hd fuel (by omega) (.closeAngle :: rest) (by simp [Ends])
    simp only [othersTokens, List.nil_append, parseArgs, ht]
    rfl
  | d, e :: es, t, ts, hd, hts, fuel + 1, h, rest => by
    obtain ⟨u, us, rfl, he, hes⟩ := hts
    simp only [othersTokens, List.length_append, List.length_cons, List.cons_append] at h
    have ht := parseType_of_denotes d hd fuel (by omega)
      (.comma :: (e.tokens ++ (othersTokens es ++ .closeAngle :: rest))) (by simp [Ends])
    have hargs := parseArgs_of_denotes e es he hes fuel (by simp; omega) rest
    simp only [othersTokens, List.cons_append, List.append_assoc, parseArgs, ht]
    simp only [bind, Except.bind, hargs]
    rfl

end

theorem ofTokens_eq_ok_iff {ts : List Token} {t : TypeDesc} :
    ofTokens ts = .ok t ↔ ∃ d : Phrase, ts = d.tokens ∧ d.Denotes t := by
  constructor
  · intro h
    obtain ⟨⟨u, rest⟩, hu, hrest⟩ := exists_of_bind_eq_ok h
    obtain ⟨d, hts, hd⟩ := exists_of_parseType _ hu
    cases rest with
    | nil =>
      cases hrest
      exact ⟨d, hts.trans (List.append_nil _), hd⟩
    | cons tok rest => cases hrest
  · rintro ⟨d, rfl, hd⟩
    have hparse := parseType_of_denotes d hd (d.tokens.length + 1) (Nat.lt_succ_self _) [] ends_nil
    rw [List.append_nil] at hparse
    rw [ofTokens, hparse]
    rfl

theorem parse?_eq_some_iff {s : String} {t : TypeDesc} : parse? s = some t ↔ parse s = .ok t := by
  unfold parse?
  cases parse s <;> simp [Except.toOption]

/-- A text is read as a type exactly when its tokens have a derivation that stands for the type. -/
theorem parse_eq_ok_iff {s : String} {t : TypeDesc} :
    parse s = .ok t ↔ ∃ d : Phrase, Splits s.toList d.tokens ∧ d.Denotes t := by
  have hdistinct : parse s = .ok t ↔ ∃ ts, Token.ofText s = .ok ts ∧ ofTokens ts = .ok t := by
    unfold parse
    cases hscan : Token.ofText s with
    | error c => simp
    | ok ts => cases hparse : ofTokens ts <;> simp [hparse]
  rw [hdistinct]
  constructor
  · rintro ⟨ts, hscan, hparse⟩
    obtain ⟨d, rfl, hd⟩ := ofTokens_eq_ok_iff.mp hparse
    exact ⟨d, Token.ofText_eq_ok_iff.mp hscan, hd⟩
  · rintro ⟨d, hsplits, hd⟩
    exact ⟨d.tokens, Token.ofText_eq_ok_iff.mpr hsplits, ofTokens_eq_ok_iff.mpr ⟨d, rfl, hd⟩⟩

/-- Texts with the same tokens, or with the same character that is none, are read alike. The fault
of a text that is not read does not depend on the text otherwise. -/
theorem fault_parse_congr {s s' : String} (h : Token.ofText s' = Token.ofText s) :
    (parse s').mapError ParseError.fault = (parse s).mapError ParseError.fault := by
  unfold parse
  rw [h]
  cases Token.ofText s with
  | error c => rfl
  | ok ts =>
    simp only
    cases ofTokens ts <;> rfl

/-- Reading follows the grammar: it gives the type of the only derivation of the tokens, if they
have one that stands for a type. Blanks put in between tokens, or taken out, change neither the type
nor the fault. -/
theorem parse_follows_grammar (s : String) :
    (∀ t, parse s = .ok t ↔ ∃ d : Phrase, Splits s.toList d.tokens ∧ d.Denotes t) ∧
      (∀ d e : Phrase, Splits s.toList d.tokens → Splits s.toList e.tokens → d = e) ∧
      ∀ before blanks after : List Char, s.toList = before ++ after →
      (∀ c ∈ blanks, Text.isBlank c = true) →
        Parted before after →
        (parse (String.ofList (before ++ blanks ++ after))).mapError ParseError.fault =
          (parse s).mapError ParseError.fault := by
  refine ⟨fun t => parse_eq_ok_iff, ?_, ?_⟩
  · intro d e hd he
    have htokens := (Token.scan_of_splits hd).symm.trans (Token.scan_of_splits he)
    exact eq_of_tokens_eq (Except.ok.inj htokens)
  · intro before blanks after hs hblanks parted
    apply fault_parse_congr
    rw [Token.ofText, Token.ofText, String.toList_ofList, hs]
    exact Token.scan_respaced hblanks parted

/-- A nested type, and the same with blanks of two scripts before its first argument. -/
theorem spaced_map_read :
    let t : TypeDesc := .named "map" [.string, .boxed .int32]
    (∃ d : Phrase, Splits "map<string,boxed<int32>>".toList d.tokens ∧ d.Denotes t ∧
        ∀ e : Phrase, Splits "map<string,boxed<int32>>".toList e.tokens → e = d) ∧
      (parse "map< \u2003string,boxed<int32>>").mapError ParseError.fault = .ok t := by
  intro t
  have hread : parse "map<string,boxed<int32>>" = .ok t := parse?_eq_some_iff.mp (by decide +kernel)
  obtain ⟨hiff, hunique, hblanks⟩ := parse_follows_grammar "map<string,boxed<int32>>"
  obtain ⟨d, hd, hdenotes⟩ := (hiff t).mp hread
  refine ⟨⟨d, hd, hdenotes, fun e he => hunique e d he hd⟩, ?_⟩
  have hopen : ∀ c ∈ "map<".toList.getLast?, Token.isNameChar c = false := by
    intro c hc
    obtain rfl : '<' = c := Option.some.inj hc
    decide
  have hspaced := hblanks "map<".toList " \u2003".toList "string,boxed<int32>>".toList rfl
    (List.all_eq_true.mp (by decide)) (.inl hopen)
  rw [hread] at hspaced
  exact hspaced

end TypeDesc

end FieldAccess
