import DigitalCip.JsonText.Numbers
import DigitalCip.JsonText.Surrogates

/-!
# JSON texts

A reader takes a text apart from its front, with white space anywhere between two tokens.
Writers differ in the white space they leave and in what they escape (`Style`).  Whatever the
style, a text is read as the value that was written (`parse_print`).  A style that escapes
surrogates too writes every string that can be read (`writes_of_joined`).
-/

namespace JsonText

/-- What a text stands for.  The members of an object are in their order. -/
inductive Value where
  | null
  | bool (b : Bool)
  | number (n : Number)
  | string (s : Str)
  | array (xs : List Value)
  | object (members : List (Str × Value))

/-- White space between tokens. -/
def isSpace (c : Char) : Bool := c = ' ' || c = '\t' || c = '\n' || c = '\r'

def skip (cs : List Char) : List Char := cs.dropWhile isSpace

/-! ## Reading -/

mutual

/-- A value, and what follows it. -/
def parseValue : Nat → List Char → Option (Value × List Char)
  | 0, _ => none
  | fuel + 1, cs =>
    match skip cs with
    | '"' :: rest => (scanString rest).map fun r => (.string (join r.1), r.2)
    | '[' :: rest =>
      match skip rest with
      | ']' :: rest => some (.array [], rest)
      | rest => (parseElements fuel rest).map fun r => (.array r.1, r.2)
    | '{' :: rest =>
      match skip rest with
      | '}' :: rest => some (.object [], rest)
      | rest => (parseMembers fuel rest).map fun r => (.object r.1, r.2)
    | 'n' :: 'u' :: 'l' :: 'l' :: rest => some (.null, rest)
    | 't' :: 'r' :: 'u' :: 'e' :: rest => some (.bool true, rest)
    | 'f' :: 'a' :: 'l' :: 's' :: 'e' :: rest => some (.bool false, rest)
    | cs => (scanNumber cs).map fun r => (.number r.1, r.2)

/-- The elements of an array, at least one, up to the bracket that closes it. -/
def parseElements : Nat → List Char → Option (List Value × List Char)
  | 0, _ => none
  | fuel + 1, cs => do
    let (x, rest) ← parseValue fuel cs
    match skip rest with
    | ',' :: rest => (parseElements fuel rest).map fun r => (x :: r.1, r.2)
    | ']' :: rest => some ([x], rest)
    | _ => none

/-- The members of an object, at least one, up to the brace that closes it. -/
def parseMembers : Nat → List Char → Option (List (Str × Value) × List Char)
  | 0, _ => none
  | fuel + 1, cs =>
    match skip cs with
    | '"' :: rest => do
      let (key, rest) ← scanString rest
      match skip rest with
      | ':' :: rest => do
        let (x, rest) ← parseValue fuel rest
        match skip rest with
        | ',' :: rest => (parseMembers fuel rest).map fun r => ((join key, x) :: r.1, r.2)
        | '}' :: rest => some ([(join key, x)], rest)
        | _ => none
      | _ => none
    | _ => none

end

/-- A whole text.  No call goes without taking a character for more than one call, so the
fuel lasts. -/
def parse (text : List Char) : Option Value := do
  let (v, rest) ← parseValue (2 * text.length + 1) text
  if skip rest = [] then some v else none

/-! ## Writing -/

/-- How a writer spells a code point, and the white space it leaves after a comma and after
a colon. -/
structure Style where
  escape : Nat → List Char
  comma : List Char
  colon : List Char
  spells : ∀ n, IsScalar n → Spells (escape n) n
  comma_space : ∀ c ∈ comma, isSpace c = true
  colon_space : ∀ c ∈ colon, isSpace c = true

section Print
variable (style : Style)

def printString (s : Str) : List Char := '"' :: (s.flatMap style.escape ++ ['"'])

mutual

def Value.print : Value → List Char
  | .null => ['n', 'u', 'l', 'l']
  | .bool true => ['t', 'r', 'u', 'e']
  | .bool false => ['f', 'a', 'l', 's', 'e']
  | .number n => n.print
  | .string s => printString style s
  | .array xs => '[' :: printElements [] xs
  | .object members => '{' :: printMembers [] members

/-- The elements, `sep` in front of the first one, and the bracket. -/
def printElements (sep : List Char) : List Value → List Char
  | [] => [']']
  | x :: xs => sep ++ (x.print ++ printElements (',' :: style.comma) xs)

/-- The members, `sep` in front of the first one, and the brace. -/
def printMembers (sep : List Char) : List (Str × Value) → List Char
  | [] => ['}']
  | (key, x) :: members =>
    sep ++ (printString style key ++ ':' :: (style.colon ++
      (x.print ++ printMembers (',' :: style.comma) members)))

end

end Print

section All
variable (p : Str → Prop)

mutual

/-- Every string of the value, the keys among them, is as `p` says. -/
def Value.All : Value → Prop
  | .string s => p s
  | .array xs => AllElements xs
  | .object members => AllMembers members
  | _ => True

def AllElements : List Value → Prop
  | [] => True
  | x :: xs => x.All ∧ AllElements xs

def AllMembers : List (Str × Value) → Prop
  | [] => True
  | (key, x) :: members => p key ∧ x.All ∧ AllMembers members

end

end All

section Imp
variable {p q : Str → Prop}

mutual

theorem Value.All.imp (himp : ∀ s, p s → q s) : ∀ {v : Value}, v.All p → v.All q
  | .null, _ | .bool _, _ | .number _, _ => trivial
  | .string s, h => himp s h
  | .array _, h => AllElements.imp himp h
  | .object _, h => AllMembers.imp himp h

theorem AllElements.imp (himp : ∀ s, p s → q s) :
    ∀ {xs : List Value}, AllElements p xs → AllElements q xs
  | [], _ => trivial
  | _ :: _, ⟨hx, hxs⟩ => ⟨hx.imp himp, AllElements.imp himp hxs⟩

theorem AllMembers.imp (himp : ∀ s, p s → q s) :
    ∀ {members : List (Str × Value)}, AllMembers p members → AllMembers q members
  | [], _ => trivial
  | (key, _) :: _, ⟨hkey, hx, hmembers⟩ =>
    ⟨himp key hkey, hx.imp himp, AllMembers.imp himp hmembers⟩

end

end Imp

/-- No string of the value has a surrogate. -/
abbrev Value.Scalar (v : Value) : Prop := v.All fun s => ∀ n ∈ s, IsScalar n

abbrev ScalarElements (xs : List Value) : Prop := AllElements (fun s => ∀ n ∈ s, IsScalar n) xs

abbrev ScalarMembers (members : List (Str × Value)) : Prop :=
  AllMembers (fun s => ∀ n ∈ s, IsScalar n) members

/-- What the style writes for a string is read as the string. -/
def Style.Writes (style : Style) (s : Str) : Prop :=
  ∀ rest, ∃ ts, scanString (s.flatMap style.escape ++ '"' :: rest) = some (ts, rest) ∧ join ts = s

/-! ## Reading what was written -/

section Skip
variable {c : Char} {sp cs rest : List Char}

theorem skip_append (h : ∀ c ∈ sp, isSpace c = true) : skip (sp ++ cs) = skip cs :=
  List.dropWhile_append_of_pos h

theorem skip_cons (h : isSpace c = false) : skip (c :: cs) = c :: cs :=
  List.dropWhile_cons_of_neg (by rw [h]; exact Bool.false_ne_true)

theorem not_space_of_isDigit (h : c.isDigit = true) : isSpace c = false ∧ c ≠ ']' := by
  refine ⟨?_, by rintro rfl; cases h⟩
  unfold isSpace
  simp only [Bool.or_eq_false_iff, decide_eq_false_iff_not]
  refine ⟨⟨⟨?_, ?_⟩, ?_⟩, ?_⟩ <;> (rintro rfl; cases h)

end Skip

section Print
variable (style : Style)

/-- The first character of a value. -/
theorem exists_print (v : Value) :
    ∃ c cs, v.print style = c :: cs ∧ isSpace c = false ∧ c ≠ ']' := by
  match v with
  | .null | .bool true | .bool false | .string _ | .array _ | .object _ =>
    exact ⟨_, _, rfl, rfl, by decide⟩
  | .number n =>
    obtain ⟨c, cs, hcs, hc⟩ := head?_print n
    refine ⟨c, cs, hcs, ?_⟩
    rcases hc with hc | rfl
    · exact not_space_of_isDigit hc
    · exact ⟨rfl, by decide⟩

/-- A value ends where the next element or the closing bracket begins. -/
theorem closed_printElements (xs : List Value) (rest : List Char) :
    Closed (printElements style (',' :: style.comma) xs ++ rest) := by
  cases xs with
  | nil =>
    intro c hc
    cases Option.some.inj hc
    decide
  | cons x xs =>
    intro c hc
    cases Option.some.inj hc
    decide

theorem closed_printMembers (members : List (Str × Value)) (rest : List Char) :
    Closed (printMembers style (',' :: style.comma) members ++ rest) := by
  match members with
  | [] =>
    intro c hc
    cases Option.some.inj hc
    decide
  | _ :: _ =>
    intro c hc
    cases Option.some.inj hc
    decide

theorem writes_of_scalar {s : Str} (hs : ∀ n ∈ s, IsScalar n) : style.Writes s :=
  scanString_flatMap fun n hn => style.spells n (hs n hn)

end Print

/-- With `fuel` calls what is written with at most so many characters is read. -/
structure Reads (style : Style) (fuel : Nat) : Prop where
  value : ∀ {v} (sp rest), v.All style.Writes → (∀ c ∈ sp, isSpace c = true) → Closed rest →
    2 * (v.print style).length ≤ fuel →
    parseValue fuel (sp ++ (v.print style ++ rest)) = some (v, rest)
  elements : ∀ {x xs} (sp rest), AllElements style.Writes (x :: xs) → (∀ c ∈ sp, isSpace c = true) →
    2 * (printElements style [] (x :: xs)).length + 1 ≤ fuel →
    parseElements fuel (sp ++ (printElements style [] (x :: xs) ++ rest)) = some (x :: xs, rest)
  members : ∀ {member members} (sp rest), AllMembers style.Writes (member :: members) →
    (∀ c ∈ sp, isSpace c = true) →
    2 * (printMembers style [] (member :: members)).length + 1 ≤ fuel →
    parseMembers fuel (sp ++ (printMembers style [] (member :: members) ++ rest)) =
      some (member :: members, rest)

namespace Reads
variable {style : Style} {fuel : Nat} {sp rest : List Char}

/-- No value is written with no character. -/
theorem zero (style : Style) : Reads style 0 where
  value {v} _ _ _ _ _ hlen := by
    obtain ⟨c, cs, hcs, -⟩ := exists_print style v
    rw [hcs, List.length_cons] at hlen
    omega
  elements _ _ _ _ hlen := by omega
  members _ _ _ _ hlen := by omega

theorem array (ih : Reads style fuel) {xs : List Value} (hxs : AllElements style.Writes xs)
    (hsp : ∀ c ∈ sp, isSpace c = true)
    (hlen : 2 * ((Value.array xs).print style).length ≤ fuel + 1) :
    parseValue (fuel + 1) (sp ++ ((Value.array xs).print style ++ rest)) =
      some (.array xs, rest) := by
  have hskip : skip (sp ++ ((Value.array xs).print style ++ rest)) =
      '[' :: (printElements style [] xs ++ rest) := by
    rw [skip_append hsp]
    exact skip_cons rfl
  rw [parseValue, hskip]
  match xs with
  | [] => rfl
  | x :: xs =>
    obtain ⟨c, cs, hcs, hspace, hclose⟩ := exists_print style x
    have helements := ih.elements [] rest hxs (fun _ hc => by cases hc) (by
      rw [Value.print, List.length_cons] at hlen
      omega)
    have hprint : printElements style [] (x :: xs) ++ rest =
        c :: (cs ++ (printElements style (',' :: style.comma) xs ++ rest)) := by
      rw [printElements, hcs]
      simp
    rw [List.nil_append, hprint] at helements
    simp only [hprint, skip_cons hspace]
    split
    · rename_i he
      exact absurd (List.cons.inj he).1 hclose
    · rw [helements]
      rfl

theorem object (ih : Reads style fuel) {members : List (Str × Value)}
    (hmembers : AllMembers style.Writes members) (hsp : ∀ c ∈ sp, isSpace c = true)
    (hlen : 2 * ((Value.object members).print style).length ≤ fuel + 1) :
    parseValue (fuel + 1) (sp ++ ((Value.object members).print style ++ rest)) =
      some (.object members, rest) := by
  have hskip : skip (sp ++ ((Value.object members).print style ++ rest)) =
      '{' :: (printMembers style [] members ++ rest) := by
    rw [skip_append hsp]
    exact skip_cons rfl
  rw [parseValue, hskip]
  match members with
  | [] => rfl
  | (key, x) :: members =>
    have hread := ih.members [] rest hmembers (fun _ hc => by cases hc) (by
      rw [Value.print, List.length_cons] at hlen
      omega)
    rw [List.nil_append] at hread
    have hquote : ∃ cs, printMembers style [] ((key, x) :: members) ++ rest = '"' :: cs := ⟨_, rfl⟩
    obtain ⟨cs, hcs⟩ := hquote
    rw [hcs] at hread
    simp only [hcs, skip_cons (show isSpace '"' = false from rfl)]
    show Option.map _ (parseMembers fuel ('"' :: cs)) = _
    rw [hread]
    rfl

theorem number (n : Number) (hsp : ∀ c ∈ sp, isSpace c = true) (hrest : Closed rest) :
    parseValue (fuel + 1) (sp ++ ((Value.number n).print style ++ rest)) =
      some (.number n, rest) := by
  obtain ⟨c, cs, hcs, hc⟩ := head?_print n
  have hspace : isSpace c = false := by
    rcases hc with hc | rfl
    · exact (not_space_of_isDigit hc).1
    · rfl
  have hscan := scanNumber_print n hrest
  have hskip : skip (sp ++ ((Value.number n).print style ++ rest)) = c :: (cs ++ rest) := by
    rw [skip_append hsp, Value.print, hcs]
    exact skip_cons hspace
  have hother : ∀ d, d.isDigit = false → d ≠ '-' → c ≠ d := by
    rintro d hd hminus rfl
    rcases hc with hc | hc
    · rw [hd] at hc
      cases hc
    · exact hminus hc
  rw [hcs, List.cons_append] at hscan
  rw [parseValue, hskip]
  split
  case h_7 =>
    rw [hscan]
    rfl
  all_goals
    rename_i he
    exact absurd (List.cons.inj he).1 (hother _ rfl (by decide))

theorem string {s : Str} (hs : style.Writes s) (hsp : ∀ c ∈ sp, isSpace c = true) :
    parseValue (fuel + 1) (sp ++ ((Value.string s).print style ++ rest)) =
      some (.string s, rest) := by
  obtain ⟨ts, hscan, hjoin⟩ := hs rest
  have hskip : skip (sp ++ ((Value.string s).print style ++ rest)) =
      '"' :: (s.flatMap style.escape ++ '"' :: rest) := by
    rw [skip_append hsp, Value.print, printString, List.cons_append, List.append_assoc]
    exact skip_cons rfl
  rw [parseValue, hskip]
  simp only [hscan, Option.map_some, hjoin]

theorem value_succ (ih : Reads style fuel) {v : Value} (hv : v.All style.Writes)
    (hsp : ∀ c ∈ sp, isSpace c = true) (hrest : Closed rest)
    (hlen : 2 * (v.print style).length ≤ fuel + 1) :
    parseValue (fuel + 1) (sp ++ (v.print style ++ rest)) = some (v, rest) := by
  match v with
  | .null | .bool true | .bool false =>
    rw [parseValue, skip_append hsp]
    rfl
  | .number n => exact number n hsp hrest
  | .string s => exact string hv hsp
  | .array xs => exact ih.array hv hsp hlen
  | .object members => exact ih.object hv hsp hlen

theorem elements_succ (ih : Reads style fuel) {x : Value} {xs : List Value}
    (hxs : AllElements style.Writes (x :: xs)) (hsp : ∀ c ∈ sp, isSpace c = true)
    (hlen : 2 * (printElements style [] (x :: xs)).length + 1 ≤ fuel + 1) :
    parseElements (fuel + 1) (sp ++ (printElements style [] (x :: xs) ++ rest)) =
      some (x :: xs, rest) := by
  rw [printElements, List.nil_append, List.length_append] at hlen
  have hvalue := ih.value sp _ hxs.1 hsp (closed_printElements style xs rest) (by omega)
  rw [printElements, List.nil_append, List.append_assoc, parseElements, hvalue]
  match xs with
  | [] => rfl
  | y :: ys =>
    have hsep : printElements style (',' :: style.comma) (y :: ys) =
        ',' :: (style.comma ++ printElements style [] (y :: ys)) := rfl
    have hmore := ih.elements style.comma rest hxs.2 style.comma_space (by
      rw [hsep, List.length_cons, List.length_append] at hlen
      omega)
    simp only [Option.bind_eq_bind, Option.bind_some, hsep, List.cons_append, List.append_assoc,
      skip_cons (show isSpace ',' = false from rfl), hmore, Option.map_some]

theorem members_succ (ih : Reads style fuel) {member : Str × Value} {members : List (Str × Value)}
    (hmembers : AllMembers style.Writes (member :: members)) (hsp : ∀ c ∈ sp, isSpace c = true)
    (hlen : 2 * (printMembers style [] (member :: members)).length + 1 ≤ fuel + 1) :
    parseMembers (fuel + 1) (sp ++ (printMembers style [] (member :: members) ++ rest)) =
      some (member :: members, rest) := by
  obtain ⟨key, x⟩ := member
  obtain ⟨hkey, hx, hmembers⟩ := hmembers
  rw [printMembers] at hlen
  simp only [List.nil_append, List.length_append, List.length_cons] at hlen
  have hvalue := ih.value style.colon _ hx style.colon_space
    (closed_printMembers style members rest) (by omega)
  obtain ⟨ts, hscan, hjoin⟩ := hkey
    (':' :: (style.colon ++ (x.print style ++
      (printMembers style (',' :: style.comma) members ++ rest))))
  have hskip : skip (sp ++ (printMembers style [] ((key, x) :: members) ++ rest)) =
      '"' :: (key.flatMap style.escape ++ '"' :: ':' :: (style.colon ++ (x.print style ++
        (printMembers style (',' :: style.comma) members ++ rest)))) := by
    rw [skip_append hsp, printMembers, printString]
    simp only [List.nil_append, List.cons_append, List.append_assoc]
    exact skip_cons rfl
  rw [parseMembers, hskip]
  simp only [hscan, Option.bind_eq_bind, Option.bind_some, hjoin,
    skip_cons (show isSpace ':' = false from rfl), hvalue]
  match members with
  | [] => rfl
  | member :: members =>
    have hsep : printMembers style (',' :: style.comma) (member :: members) =
        ',' :: (style.comma ++ printMembers style [] (member :: members)) := rfl
    have hmore := ih.members style.comma rest hmembers style.comma_space (by
      rw [hsep, List.length_cons, List.length_append] at hlen
      omega)
    simp only [hsep, List.cons_append, List.append_assoc,
      skip_cons (show isSpace ',' = false from rfl), hmore, Option.map_some]

theorem all (style : Style) (fuel : Nat) : Reads style fuel := by
  induction fuel with
  | zero => exact zero style
  | succ fuel ih =>
    exact ⟨fun _ _ => ih.value_succ, fun _ _ => ih.elements_succ, fun _ _ => ih.members_succ⟩

end Reads

theorem parse_print_of_writes (style : Style) {v : Value} (hv : v.All style.Writes) :
    parse (v.print style) = some v := by
  have hread := (Reads.all style (2 * (v.print style).length + 1)).value [] [] hv
    (fun _ hc => by cases hc) (fun _ hc => by cases hc) (by omega)
  rw [List.nil_append, List.append_nil] at hread
  unfold parse
  rw [hread]
  rfl

/-- **A text is read as the value that was written**, in whatever style. -/
theorem parse_print (style : Style) {v : Value} (hv : v.Scalar) :
    parse (v.print style) = some v :=
  parse_print_of_writes style (hv.imp fun _ => writes_of_scalar style)

/-! ## What is read -/

/-- With `fuel` calls only joined strings are read. -/
structure ReadsJoined (fuel : Nat) : Prop where
  value : ∀ {cs v rest}, parseValue fuel cs = some (v, rest) → v.All Joined
  elements : ∀ {cs xs rest}, parseElements fuel cs = some (xs, rest) → AllElements Joined xs
  members : ∀ {cs members rest}, parseMembers fuel cs = some (members, rest) →
    AllMembers Joined members

namespace ReadsJoined
variable {fuel : Nat} {cs rest : List Char}

theorem value_succ (ih : ReadsJoined fuel) {v : Value}
    (h : parseValue (fuel + 1) cs = some (v, rest)) : v.All Joined := by
  rw [parseValue] at h
  split at h
  case h_1 =>
    obtain ⟨r, hr, he⟩ := Option.map_eq_some_iff.mp h
    cases he
    exact joined_of_scanString hr
  case h_2 =>
    split at h
    · cases h
      trivial
    · obtain ⟨r, hr, he⟩ := Option.map_eq_some_iff.mp h
      cases he
      exact ih.elements hr
  case h_3 =>
    split at h
    · cases h
      trivial
    · obtain ⟨r, hr, he⟩ := Option.map_eq_some_iff.mp h
      cases he
      exact ih.members hr
  case h_7 =>
    obtain ⟨r, -, he⟩ := Option.map_eq_some_iff.mp h
    cases he
    trivial
  -- the three words
  all_goals
    cases h
    trivial

theorem elements_succ (ih : ReadsJoined fuel) {xs : List Value}
    (h : parseElements (fuel + 1) cs = some (xs, rest)) : AllElements Joined xs := by
  rw [parseElements] at h
  obtain ⟨⟨x, cs'⟩, hx, h⟩ := Option.bind_eq_some_iff.mp h
  dsimp only at h
  split at h
  · obtain ⟨r, hr, he⟩ := Option.map_eq_some_iff.mp h
    cases he
    exact ⟨ih.value hx, ih.elements hr⟩
  · cases h
    exact ⟨ih.value hx, trivial⟩
  · cases h

theorem members_succ (ih : ReadsJoined fuel) {members : List (Str × Value)}
    (h : parseMembers (fuel + 1) cs = some (members, rest)) : AllMembers Joined members := by
  rw [parseMembers] at h
  split at h
  · obtain ⟨⟨key, cs'⟩, hkey, h⟩ := Option.bind_eq_some_iff.mp h
    dsimp only at h
    split at h
    · obtain ⟨⟨x, cs'⟩, hx, h⟩ := Option.bind_eq_some_iff.mp h
      dsimp only at h
      split at h
      · obtain ⟨r, hr, he⟩ := Option.map_eq_some_iff.mp h
        cases he
        exact ⟨joined_of_scanString hkey, ih.value hx, ih.members hr⟩
      · cases h
        exact ⟨joined_of_scanString hkey, ih.value hx, trivial⟩
      · cases h
    · cases h
  · cases h

theorem all (fuel : Nat) : ReadsJoined fuel := by
  induction fuel with
  | zero =>
    refine ⟨fun h => ?_, fun h => ?_, fun h => ?_⟩
    · rw [parseValue] at h
      cases h
    · rw [parseElements] at h
      cases h
    · rw [parseMembers] at h
      cases h
  | succ fuel ih => exact ⟨ih.value_succ, ih.elements_succ, ih.members_succ⟩

end ReadsJoined

/-- **What is read are joined strings.** -/
theorem joined_of_parse {text : List Char} {v : Value} (h : parse text = some v) :
    v.All Joined := by
  obtain ⟨⟨v', rest⟩, hv, h⟩ := Option.bind_eq_some_iff.mp h
  dsimp only at h
  split at h
  · cases h
    exact (ReadsJoined.all _).value hv
  · cases h

theorem writes_of_joined {style : Style}
    (halone : ∀ n, 0xD800 ≤ n → n ≤ 0xDFFF → style.escape n = '\\' :: 'u' :: hex4 n) {s : Str}
    (hs : Joined s) : style.Writes s :=
  scanString_joined style.spells halone hs

end JsonText
