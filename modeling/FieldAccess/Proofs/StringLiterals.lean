import FieldAccess.Proofs.Calls
import FieldAccess.Proofs.SourceLayouts
import FieldAccess.Proofs.Successes
import Mathlib.Data.List.Basic
import Mathlib.Tactic.SplitIfs

/-! String literals, read back. A reader takes a literal character by character and gives what it
stands for, so that a text can be told from its escaped form. The tests of a chain of conditions are
read off its lines in this way; they are the labels of the switch that the chain was written for, in
order, and so choose the block that evaluation chooses. -/
namespace FieldAccess.Java

/-! ### Literals -/

/-- The character that an escape stands for. -/
def unescape? (c : Char) : Option Char :=
  if c = '"' then some '"'
  else if c = '\\' then some '\\'
  else if c = 'n' then some '\n'
  else if c = 'r' then some '\r'
  else if c = 't' then some '\t'
  else none

/-- Reads a literal behind its opening quote: what it stands for, and what follows its closing
quote. -/
def readLiteral : List Char → Option (List Char × List Char)
  | [] => none
  | [c] => if c = '"' then some ([], []) else none
  | c :: d :: rest =>
    if c = '"' then some ([], d :: rest)
    else if c = '\\' then do
      let e ← unescape? d
      let (text, after) ← readLiteral rest
      return (e :: text, after)
    else do
      let (text, after) ← readLiteral (d :: rest)
      return (c :: text, after)

/-- What the inside of a literal stands for, if a quote behind it ends the literal there and not
before. -/
def literalText? (inside : String) : Option String :=
  match readLiteral (inside.toList ++ ['"']) with
  | some (text, []) => some (String.ofList text)
  | _ => none

theorem readLiteral_quote (rest : List Char) : readLiteral ('"' :: rest) = some ([], rest) := by
  cases rest <;> rfl

theorem readLiteral_escape {c d : Char} (h : unescape? c = some d) (rest : List Char) :
    readLiteral ('\\' :: c :: rest) = (readLiteral rest).map fun r => (d :: r.1, r.2) := by
  have hne : '\\' ≠ '"' := by decide
  simp only [readLiteral, if_neg hne, if_true, h]
  cases readLiteral rest <;> rfl

theorem readLiteral_plain {c : Char} (hquote : c ≠ '"') (hbackslash : c ≠ '\\') (rest : List Char) :
    readLiteral (c :: rest) = (readLiteral rest).map fun r => (c :: r.1, r.2) := by
  cases rest with
  | nil => simp [readLiteral, hquote]
  | cons d rest =>
    simp only [readLiteral, if_neg hquote, if_neg hbackslash]
    cases readLiteral (d :: rest) <;> rfl

/-- How a character is written: behind a backslash, or as it is. -/
theorem escapeChar_cases (c : Char) :
    (∃ d, escapeChar c = ['\\', d] ∧ unescape? d = some c) ∨
      (escapeChar c = [c] ∧ c ≠ '"' ∧ c ≠ '\\' ∧ c ≠ '\n' ∧ c ≠ '\r' ∧ c ≠ '\t') := by
  unfold escapeChar
  split_ifs with h₁ h₂ h₃ h₄ h₅
  · exact Or.inl ⟨'"', rfl, by rw [h₁]; rfl⟩
  · exact Or.inl ⟨'\\', rfl, by rw [h₂]; rfl⟩
  · exact Or.inl ⟨'n', rfl, by rw [h₃]; rfl⟩
  · exact Or.inl ⟨'r', rfl, by rw [h₄]; rfl⟩
  · exact Or.inl ⟨'t', rfl, by rw [h₅]; rfl⟩
  · exact Or.inr ⟨rfl, h₁, h₂, h₃, h₄, h₅⟩

/-- After every character the reader stands where the next one begins. -/
theorem readLiteral_escapeChars (cs rest : List Char) :
    readLiteral (escapeChars cs ++ '"' :: rest) = some (cs, rest) := by
  induction cs with
  | nil => exact readLiteral_quote rest
  | cons c cs ih =>
    have hcons : escapeChars (c :: cs) = escapeChar c ++ escapeChars cs := List.flatMap_cons
    rw [hcons, List.append_assoc]
    rcases escapeChar_cases c with ⟨d, hd, hc⟩ | ⟨hc, hquote, hbackslash, _⟩
    · rw [hd, List.cons_append, List.cons_append, List.nil_append, readLiteral_escape hc, ih]
      rfl
    · rw [hc, List.cons_append, List.nil_append, readLiteral_plain hquote hbackslash, ih]
      rfl

theorem literalText?_escape (s : String) : literalText? (escape s) = some s := by
  rw [literalText?, escape, String.toList_ofList, readLiteral_escapeChars]
  simp

theorem escape_injective : Function.Injective escape := by
  intro s t h
  have hread := literalText?_escape s
  rw [h, literalText?_escape t, Option.some.injEq] at hread
  exact hread.symm

/-! ### What an escaped text is made of -/

/-- Line ends and tabs are not left in a text. -/
theorem not_control_of_mem_escape {s : String} {c : Char} (h : c ∈ (escape s).toList) :
    c ≠ '\n' ∧ c ≠ '\r' ∧ c ≠ '\t' := by
  rw [escape, String.toList_ofList, escapeChars, List.mem_flatMap] at h
  obtain ⟨d, _, hc⟩ := h
  rcases escapeChar_cases d with ⟨e, he, hd⟩ | ⟨hd, _, _, hplain⟩
  · rw [he, List.mem_cons, List.mem_singleton] at hc
    rcases hc with rfl | rfl
    · decide
    · -- no escape stands for itself among these
      refine ⟨?_, ?_, ?_⟩ <;> rintro rfl <;> cases hd
  · rw [hd, List.mem_singleton] at hc
    exact hc ▸ hplain

/-- Number of backslashes that a text ends with. -/
def backslashRun (cs : List Char) : Nat := (cs.reverse.takeWhile fun c => c = '\\').length

theorem backslashRun_append (before cs : List Char) (heven : backslashRun before % 2 = 0) :
    backslashRun (before ++ cs) % 2 = backslashRun cs % 2 := by
  unfold backslashRun at heven ⊢
  rw [List.reverse_append, List.takeWhile_append]
  split
  · next hall =>
    rw [List.length_append, ← hall, Nat.add_mod, heven]
    omega
  · rfl

theorem backslashRun_escapeChar (c : Char) : backslashRun (escapeChar c) % 2 = 0 := by
  unfold escapeChar
  split_ifs with h₁ h₂
  · rfl
  · rfl
  · rfl
  · rfl
  · rfl
  · simp [backslashRun, h₂]

/-- A quote is written behind one backslash of its own. -/
theorem eq_of_quote_in_escapeChar {c : Char} {before after : List Char}
    (h : escapeChar c = before ++ '"' :: after) : before = ['\\'] := by
  rcases escapeChar_cases c with ⟨d, hd, _⟩ | ⟨hc, hquote, _⟩
  · rw [hd] at h
    rcases before with _ | ⟨b, _ | ⟨b', before⟩⟩
    · exact absurd (List.cons.inj h).1 (by decide)
    · rw [← (List.cons.inj h).1]
    · exact absurd (congrArg List.length h) (by simp)
  · rw [hc] at h
    rcases before with _ | ⟨b, before⟩
    · exact absurd (List.cons.inj h).1 hquote
    · exact absurd (congrArg List.length h) (by simp)

/-- A quote in an escaped text stands behind a backslash that does not itself belong to an escape:
those in front of it can be counted off in pairs but for one. -/
theorem backslashRun_of_quote {cs before after : List Char}
    (h : escapeChars cs = before ++ '"' :: after) : backslashRun before % 2 = 1 := by
  induction cs generalizing before with
  | nil => exact absurd h (by simp [escapeChars])
  | cons c cs ih =>
    have hcons : escapeChars (c :: cs) = escapeChar c ++ escapeChars cs := List.flatMap_cons
    rw [hcons] at h
    -- the quote is in the rest, or it is the end of this character
    rcases List.append_eq_append_iff.mp h with ⟨later, rfl, hlater⟩ | ⟨own, hown, hquote⟩
    · rw [backslashRun_append _ _ (backslashRun_escapeChar c)]
      exact ih hlater
    · cases own with
      | nil =>
        have hnone : backslashRun [] % 2 = 1 := ih hquote.symm
        exact absurd hnone (by decide)
      | cons q own =>
        obtain rfl : '"' = q := (List.cons.inj hquote).1
        rw [eq_of_quote_in_escapeChar hown]
        rfl

/-! ### Chains of tests -/

/-- What follows the quote of the literal in a line that opens a branch. -/
def afterKeyword? (text : List Char) : Option (List Char) :=
  (text.dropPrefix? "if (\"".toList).or (text.dropPrefix? "\x7d else if (\"".toList)

/-- The text of a comparison that opens a branch of a chain, and what it is compared with. -/
def readTest? (text : List Char) : Option (String × String) := do
  let rest ← afterKeyword? text
  let (label, rest) ← readLiteral rest
  let rest ← rest.dropPrefix? ".equals(".toList
  let key ← rest.dropSuffix? ")) \x7b".toList
  return (String.ofList label, String.ofList key)

/-- The comparison on a line of the chain itself; deeper lines belong to its blocks. -/
def Line.test? : Line → Option (String × String)
  | .code 0 text => readTest? text.toList
  | _ => none

/-- The comparisons of a chain, in order. -/
def tests (lines : List Line) : List (String × String) := lines.filterMap Line.test?

theorem tests_append (ls ms : List Line) : tests (ls ++ ms) = tests ls ++ tests ms :=
  List.filterMap_append

theorem tests_indented (ls : List Line) : tests (indented ls) = [] := by
  rw [tests, List.filterMap_eq_nil_iff]
  intro l hl
  obtain ⟨m, _, rfl⟩ := List.mem_map.mp hl
  cases m <;> rfl

theorem tests_lastBranch (block : Block) (ls : List Line) :
    tests (Layout.lines.lastBranch block ls) = [] := by
  have hclosed : tests Layout.lines.closed = [] := by decide +kernel
  unfold Layout.lastBranch
  split
  · exact hclosed
  · have hopened : tests (Layout.lines.opened "\x7d else") = [] := by decide +kernel
    have happend : tests (Layout.lines.braced "\x7d else" ls) =
        tests (Layout.lines.opened "\x7d else") ++ tests (indented ls) ++
          tests Layout.lines.closed := by
      rw [← tests_append, ← tests_append]
      rfl
    rw [happend, hopened, hclosed, tests_indented]
    rfl

/-- The keyword of the first branch of a chain, or of a later one. -/
def IsKeyword (keyword : String) : Prop := keyword = "if" ∨ keyword = "\x7d else if"

theorem afterKeyword?_append {keyword : String} (hkeyword : IsKeyword keyword) (rest : List Char) :
    afterKeyword? ((keyword ++ " (\"").toList ++ rest) = some rest := by
  rcases hkeyword with rfl | rfl
  · have hfound : (("if" ++ " (\"").toList ++ rest).dropPrefix? "if (\"".toList = some rest :=
      List.dropPrefix?_append_of_beq rest (by decide +kernel)
    rw [afterKeyword?, hfound]
    rfl
  · have hfirst : (("\x7d else if" ++ " (\"").toList ++ rest).dropPrefix? "if (\"".toList = none :=
      rfl
    have hfound : (("\x7d else if" ++ " (\"").toList ++ rest).dropPrefix?
        "\x7d else if (\"".toList = some rest :=
      List.dropPrefix?_append_of_beq rest (by decide +kernel)
    rw [afterKeyword?, hfirst, hfound]
    rfl

/-- The line of a test is read back, whatever the label. -/
theorem tests_opened {keyword : String} (hkeyword : IsKeyword keyword) (label key : String) :
    tests (Layout.lines.opened (keyword ++ " (\"" ++ escape label ++ "\".equals(" ++ key ++ "))")) =
      [(label, key)] := by
  have htext :
    (keyword ++ " (\"" ++ escape label ++ "\".equals(" ++ key ++ "))" ++ " \x7b").toList =
      (keyword ++ " (\"").toList ++ (escapeChars label.toList ++
        '"' :: (".equals(".toList ++ (key.toList ++ ")) \x7b".toList))) := by
    simp [escape]
  have hkey : (key.toList ++ ")) \x7b".toList).dropSuffix? ")) \x7b".toList = some key.toList :=
    List.dropSuffix?_eq_some_iff.mpr ⟨_, rfl, by decide +kernel⟩
  have hequals :
    (".equals(".toList ++ (key.toList ++ ")) \x7b".toList)).dropPrefix? ".equals(".toList =
      some (key.toList ++ ")) \x7b".toList) := List.dropPrefix?_append_of_beq _ (by decide +kernel)
  have hread : readTest? (keyword ++ " (\"" ++ escape label ++ "\".equals(" ++ key ++ "))" ++
    " \x7b").toList =
      some (label, key) := by
    rw [htext, readTest?, afterKeyword?_append hkeyword]
    simp only [Option.bind_eq_bind, Option.bind_some, readLiteral_escapeChars, hequals, hkey]
    simp
  exact List.filterMap_cons_some hread

/-- The tests of a chain are its labels in order, each compared with the key. -/
theorem tests_chain {p : Program} {key keyword : String} (hkeyword : IsKeyword keyword)
    {cases : List (String × List Stmt)} {lines : List Line}
    (h : Layout.lines.tests p key keyword cases = .ok lines) :
    tests lines = cases.map fun c => (c.1, key) := by
  induction cases generalizing keyword lines with
  | nil =>
    obtain rfl : [] = lines := Except.ok.inj h
    rfl
  | cons c rest ih =>
    obtain ⟨label, body⟩ := c
    rw [Layout.tests] at h
    obtain ⟨ls, _, h⟩ := exists_of_bind_eq_ok h
    obtain ⟨more, hmore, h⟩ := exists_of_bind_eq_ok h
    obtain rfl := Except.ok.inj h
    calc tests (Layout.lines.opened _ ++ indented ls ++ more)
        = [(label, key)] ++ [] ++ rest.map fun c => (c.1, key) := by
          rw [tests_append, tests_append, tests_opened hkeyword, tests_indented,
            ih (Or.inr rfl) hmore]
      _ = ((label, body) :: rest).map fun c => (c.1, key) := rfl

theorem tests_switch {p : Program} {scrutinee : Expr} {cases : List (String × List Stmt)}
    {default : Block} (hcases : cases ≠ []) {lines : List Line}
    (h : stmtLines p (.switch scrutinee cases default) = .ok lines) :
    ∃ key, exprText p scrutinee = .ok key ∧ tests lines = cases.map fun c => (c.1, key) := by
  rw [stmtLines, Layout.stmt] at h
  obtain ⟨key, hkey, h⟩ := exists_of_bind_eq_ok h
  obtain ⟨chain, hchain, h⟩ := exists_of_bind_eq_ok h
  obtain ⟨last, _, h⟩ := exists_of_bind_eq_ok h
  have hsome : cases.isEmpty = false := List.isEmpty_eq_false_iff.mpr hcases
  obtain rfl := Except.ok.inj h
  refine ⟨key, hkey, ?_⟩
  have happend : tests (Layout.lines.append chain (Layout.lines.lastBranch default last)) =
      tests chain ++ tests (Layout.lines.lastBranch default last) := tests_append _ _
  rw [hsome, if_neg Bool.false_ne_true, happend, tests_chain (Or.inl rfl) hchain, tests_lastBranch,
    List.append_nil]

/-- The block behind the first test that compares with a given text; without one, the last block. -/
def branch (lines : List Line) (cases : List (String × List Stmt)) (default : Block)
    (text : String) : Block :=
  let chosen := (tests lines).findIdx? fun t => t.1 == text
  (chosen.bind fun i => cases[i]?.map Prod.snd).getD default

theorem get?_eq_findIdx? (text : String) (cases : List (String × List Stmt)) :
    Assoc.get? text cases = (cases.findIdx? fun c => c.1 == text).bind fun i =>
      cases[i]?.map Prod.snd := by
  induction cases with
  | nil => rfl
  | cons c rest ih =>
    obtain ⟨label, body⟩ := c
    rw [List.findIdx?_cons]
    by_cases h : label = text
    · simp [Assoc.get?, h]
    · rw [Assoc.get?, if_neg h, ih, if_neg (by simpa using h), Option.bind_map]
      rfl

theorem branch_eq {lines : List Line} {cases : List (String × List Stmt)} {key : String}
    (htests : tests lines = cases.map fun c => (c.1, key)) (default : Block) (text : String) :
    branch lines cases default text = (Assoc.get? text cases).getD default := by
  rw [branch, htests, List.findIdx?_map, get?_eq_findIdx?]
  rfl

/-- Evaluation of a switch goes on with the block that its chain of tests chooses. -/
theorem exec_switch {ctx : Context} {call : Caller} {frame : Frame} {scrutinee : Expr}
    {cases : List (String × List Stmt)} {default : Block} {lines : List Line} {key text : String}
    (htests : tests lines = cases.map fun c => (c.1, key)) {h h' : Heap}
    (hscrutinee : (Action.eval ctx call frame scrutinee).run h = .ok (.str text) h') :
    (Action.exec ctx call (.switch scrutinee cases default) frame).run h =
      (Action.execBlock ctx call (branch lines cases default text) frame).run h' := by
  rw [Action.exec_switch, Action.bind_of_ok hscrutinee, branch_eq htests]
  simp only [Action.execCases_eq]
  cases Assoc.get? text cases <;> rfl

/-- The escaped form of a text has no line end, no tab and no quote without a backslash of its own,
and as the inside of a literal it stands for the text, so that different texts have different forms.
The chain that is written for a switch compares the key with the labels and nothing else, in order,
and chooses the block with which evaluation goes on. -/
theorem escaped_labels_read_back :
    (∀ s, (∀ c ∈ (escape s).toList, c ≠ '\n' ∧ c ≠ '\r' ∧ c ≠ '\t') ∧
      (∀ before after, (escape s).toList = before ++ '"' :: after → backslashRun before % 2 = 1) ∧
      literalText? (escape s) = some s) ∧
    Function.Injective escape ∧
    ∀ (p : Program) (scrutinee : Expr) (cases : List (String × List Stmt)) (default : Block)
    (lines : List Line),
      cases ≠ [] → stmtLines p (.switch scrutinee cases default) = .ok lines →
      ∃ key, exprText p scrutinee = .ok key ∧ tests lines = cases.map (fun c => (c.1, key)) ∧
        ∀ (ctx : Context) (call : Caller) (frame : Frame) (h h' : Heap) (text : String),
          (Action.eval ctx call frame scrutinee).run h = .ok (.str text) h' →
          (Action.exec ctx call (.switch scrutinee cases default) frame).run h =
            (Action.execBlock ctx call (branch lines cases default text) frame).run h' := by
  refine ⟨?_, escape_injective, ?_⟩
  · intro s
    refine ⟨fun c hc => not_control_of_mem_escape hc, ?_, literalText?_escape s⟩
    intro before after hquote
    rw [escape, String.toList_ofList] at hquote
    exact backslashRun_of_quote hquote
  · intro p scrutinee cases default lines hcases hlines
    obtain ⟨key, hkey, htests⟩ := tests_switch hcases hlines
    exact ⟨key, hkey, htests, fun _ _ _ _ _ _ hscrutinee => exec_switch htests hscrutinee⟩

/-- Labels with a quote behind backslashes and with a line end, in front of a default. -/
theorem odd_labels_read_back :
    let cases : List (String × List Stmt) := [("a\\\\\"", []), ("b\n", [.ret .this])]
    ∃ lines, stmtLines .empty (.switch (.var "class") cases [.ret (.var "x")]) = .ok lines ∧
      tests lines = [("a\\\\\"", "class_"), ("b\n", "class_")] := by
  intro cases
  refine ⟨_, rfl, ?_⟩
  obtain ⟨key, hkey, htests, _⟩ :=
    escaped_labels_read_back.2.2 .empty (.var "class") cases [.ret (.var "x")] _
    (List.cons_ne_nil _ _) rfl
  obtain rfl : "class_" = key := Except.ok.inj hkey
  exact htests

end FieldAccess.Java
