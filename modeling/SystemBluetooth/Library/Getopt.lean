import Mathlib.Data.List.Basic
import Mathlib.Data.List.Nodup
import Mathlib.Data.List.TakeWhile

/-!
# Long options

`getopt_long_only` over a whole command line: the options in the order in which it returns
them, and the operands, which may stand anywhere, in the order in which it leaves them behind
the options. A long option begins with one dash or two, may be abbreviated as long as it can be
told apart, and has its argument behind an `=` or in the next word. Short options take no
argument here.

`Spelled` says which command lines are correct, and what they say, without any scanning.
-/

namespace Getopt

abbrev Word := List UInt8

structure LongOption where
  name : Word
  hasArg : Bool
  deriving DecidableEq, Repr

/-- The options of a program. -/
structure Table where
  long : List LongOption
  short : UInt8 → Bool
  distinct : (long.map LongOption.name).Nodup
  plain : ∀ o ∈ long, 0x3d ∉ o.name

/-- What one call returns: a long option by its index, a short one, or `?`. -/
inductive Item where
  | long (index : Nat) (optarg : Option Word)
  | short (c : UInt8)
  | unknown
  deriving DecidableEq, Repr

/-! ### Names -/

inductive Match where
  | missing
  | found (index : Nat)
  | ambiguous
  deriving DecidableEq, Repr

/-- The options whose names begin like this. -/
def Table.candidates (t : Table) (name : Word) : List Nat :=
  (List.range t.long.length).filter fun i => t.long[i]?.any fun o => name.isPrefixOf o.name

/-- The option of that name, or else the only one whose name begins so. -/
def Table.resolve (t : Table) (name : Word) : Match :=
  match t.long.findIdx? fun o => o.name == name with
  | some i => .found i
  | none =>
      match t.candidates name with
      | [] => .missing
      | [i] => .found i
      | _ => .ambiguous

/-- The name of the option, or the beginning of its name and of no other. -/
def Table.Abbreviates (t : Table) (name : Word) (i : Nat) : Prop :=
  ∃ o, t.long[i]? = some o ∧ name <+: o.name ∧
    (name = o.name ∨ ∀ j p, t.long[j]? = some p → name <+: p.name → j = i)

variable {t : Table}

theorem mem_candidates {name : Word} {i : Nat} :
    i ∈ t.candidates name ↔ ∃ o, t.long[i]? = some o ∧ name <+: o.name := by
  rw [Table.candidates, List.mem_filter, List.mem_range]
  constructor
  · rintro ⟨hlt, hany⟩
    refine ⟨t.long[i], List.getElem?_eq_getElem hlt, ?_⟩
    rwa [List.getElem?_eq_getElem hlt, Option.any_some, List.isPrefixOf_iff_prefix] at hany
  · rintro ⟨o, ho, hbegins⟩
    obtain ⟨hlt, -⟩ := List.getElem?_eq_some_iff.mp ho
    refine ⟨hlt, ?_⟩
    rwa [ho, Option.any_some, List.isPrefixOf_iff_prefix]

theorem Table.name_unique (t : Table) {i j : Nat} {o p : LongOption} (ho : t.long[i]? = some o)
    (hp : t.long[j]? = some p) (hname : o.name = p.name) : i = j := by
  obtain ⟨hi, rfl⟩ := List.getElem?_eq_some_iff.mp ho
  obtain ⟨hj, rfl⟩ := List.getElem?_eq_some_iff.mp hp
  have hdistinct := t.distinct
  rw [List.nodup_iff_injective_getElem] at hdistinct
  have h := @hdistinct ⟨i, by simpa using hi⟩ ⟨j, by simpa using hj⟩ (by simpa using hname)
  exact congrArg Fin.val h

theorem resolve_found {name : Word} {i : Nat} :
    t.resolve name = .found i ↔ t.Abbreviates name i := by
  cases hexact : t.long.findIdx? fun o => o.name == name with
  | some j =>
      obtain ⟨hj, hname, -⟩ := List.findIdx?_eq_some_iff_getElem.mp hexact
      have hname : t.long[j].name = name := by simpa using hname
      have hsome := List.getElem?_eq_getElem hj
      rw [Table.resolve, hexact]
      constructor
      · intro h
        obtain rfl : j = i := by simpa using h
        exact ⟨_, hsome, hname ▸ List.prefix_rfl, .inl hname.symm⟩
      · rintro ⟨o, ho, -, heq | honly⟩
        · rw [t.name_unique hsome ho (hname.trans heq)]
        · rw [honly j _ hsome (hname ▸ List.prefix_rfl)]
  | none =>
      have hno : ∀ (j : Nat) (p : LongOption), t.long[j]? = some p → p.name ≠ name := by
        intro j p hp heq
        have := List.findIdx?_eq_none_iff.mp hexact p (List.mem_of_getElem? hp)
        simp [heq] at this
      have hcandidates : t.resolve name = .found i ↔ t.candidates name = [i] := by
        rw [Table.resolve, hexact]
        rcases t.candidates name with _ | ⟨j, _ | ⟨k, rest⟩⟩ <;> simp
      rw [hcandidates]
      constructor
      · intro hone
        obtain ⟨o, ho, hbegins⟩ := mem_candidates.mp (hone ▸ List.mem_singleton_self i)
        refine ⟨o, ho, hbegins, .inr fun j p hp hj => ?_⟩
        have hmem := mem_candidates.mpr ⟨p, hp, hj⟩
        rwa [hone, List.mem_singleton] at hmem
      · rintro ⟨o, ho, hbegins, heq | honly⟩
        · exact absurd heq.symm (hno i o ho)
        · have hnodup : (t.candidates name).Nodup := List.nodup_range.filter _
          have hmem := mem_candidates.mpr ⟨o, ho, hbegins⟩
          have hall : ∀ j ∈ t.candidates name, j = i := fun j hj => by
            obtain ⟨p, hp, hj⟩ := mem_candidates.mp hj
            exact honly j p hp hj
          rcases hlist : t.candidates name with _ | ⟨j, _ | ⟨k, rest⟩⟩
          · rw [hlist] at hmem
            cases hmem
          · rw [hall j (hlist ▸ List.mem_cons_self)]
          · rw [hlist, List.nodup_cons] at hnodup
            rw [hall j (hlist ▸ List.mem_cons_self),
              hall k (hlist ▸ List.mem_cons_of_mem _ List.mem_cons_self)] at hnodup
            exact absurd List.mem_cons_self hnodup.1

theorem resolve_missing {name : Word} :
    t.resolve name = .missing ↔ ∀ o ∈ t.long, ¬ name <+: o.name := by
  have hcandidates : t.candidates name = [] ↔ ∀ o ∈ t.long, ¬ name <+: o.name := by
    rw [List.eq_nil_iff_forall_not_mem]
    constructor
    · intro h o ho hbegins
      obtain ⟨i, hi⟩ := List.getElem?_of_mem ho
      exact h i (mem_candidates.mpr ⟨o, hi, hbegins⟩)
    · intro h i hi
      obtain ⟨o, ho, hbegins⟩ := mem_candidates.mp hi
      exact h o (List.mem_of_getElem? ho) hbegins
  rw [← hcandidates, Table.resolve]
  cases hexact : t.long.findIdx? fun o => o.name == name with
  | some j =>
      obtain ⟨hj, hname, -⟩ := List.findIdx?_eq_some_iff_getElem.mp hexact
      have hname : t.long[j].name = name := by simpa using hname
      have hbegins : name <+: t.long[j].name := hname ▸ List.prefix_rfl
      have hmem := mem_candidates.mpr ⟨_, List.getElem?_eq_getElem hj, hbegins⟩
      simp only [reduceCtorEq, false_iff]
      exact List.ne_nil_of_mem hmem
  | none => rcases t.candidates name with _ | ⟨j, _ | ⟨k, rest⟩⟩ <;> simp

/-! ### Words -/

/-- What a word is by itself. -/
inductive Element where
  | operand
  | terminator
  | shorts (cs : Word)
  | long (index : Nat) (value : Option Word)
  | unknown
  deriving DecidableEq, Repr

/-- What stands in front of the first `=`. -/
def nameOf (body : Word) : Word := body.takeWhile (· != 0x3d)

/-- What stands behind the first `=`, if there is one. -/
def valueOf (body : Word) : Option Word :=
  if 0x3d ∈ body then some (body.dropWhile (· != 0x3d)).tail else none

/-- After one dash, a character alone can be a short option, and so can the characters of what
does not begin like a long option. -/
def Table.classify (t : Table) : Word → Element
  | 0x2d :: 0x2d :: body =>
      if body = [] then .terminator
      else
        match t.resolve (nameOf body) with
        | .found i => .long i (valueOf body)
        | _ => .unknown
  | 0x2d :: c :: rest =>
      if rest = [] ∧ t.short c then .shorts [c]
      else
        match t.resolve (nameOf (c :: rest)) with
        | .found i => .long i (valueOf (c :: rest))
        | .missing => if t.short c then .shorts (c :: rest) else .unknown
        | .ambiguous => .unknown
  | _ => .operand

/-- Does the option have an argument? -/
def Table.takes (t : Table) (index : Nat) : Bool := t.long[index]?.any LongOption.hasArg

def Table.shortItem (t : Table) (c : UInt8) : Item := if t.short c then .short c else .unknown

/-- More options and operands in front of others. -/
def prepend (items : List Item) (operands : List Word) (rest : List Item × List Word) :
    List Item × List Word := (items ++ rest.1, operands ++ rest.2)

def getoptLongOnly (t : Table) : List Word → List Item × List Word
  | [] => ([], [])
  | word :: words =>
      match t.classify word with
      | .operand => prepend [] [word] (getoptLongOnly t words)
      | .terminator => ([], words)
      | .shorts cs => prepend (cs.map t.shortItem) [] (getoptLongOnly t words)
      | .long i value =>
          if t.takes i then
            match value, words with
            | some value, words => prepend [.long i (some value)] [] (getoptLongOnly t words)
            | none, value :: words => prepend [.long i (some value)] [] (getoptLongOnly t words)
            | none, [] => ([.unknown], [])
          else if value = none then prepend [.long i none] [] (getoptLongOnly t words)
          else prepend [.unknown] [] (getoptLongOnly t words)
      | .unknown => prepend [.unknown] [] (getoptLongOnly t words)

/-! ### Correct command lines -/

/-- Not an option: it does not begin with a dash, or is one. -/
def Operand (word : Word) : Prop := word.head? ≠ some 0x2d ∨ word = [0x2d]

/-- A long option with its dashes. Behind one dash, a single character must not be a short
option. -/
inductive Dashed (t : Table) : Word → Word → Prop where
  | two {body : Word} (nonempty : body ≠ []) : Dashed t body (0x2d :: 0x2d :: body)
  | one {c : UInt8} {rest : Word} (nodash : c ≠ 0x2d) (long : rest ≠ [] ∨ t.short c = false) :
      Dashed t (c :: rest) (0x2d :: c :: rest)

/-- `Spelled t words items operands`: the words are a command line without mistakes, with these
options and operands. -/
inductive Spelled (t : Table) : List Word → List Item → List Word → Prop where
  | nil : Spelled t [] [] []
  | terminator (operands : List Word) : Spelled t ([0x2d, 0x2d] :: operands) [] operands
  | operand {word : Word} {words : List Word} {items : List Item} {operands : List Word}
      (operand : Operand word) (rest : Spelled t words items operands) :
      Spelled t (word :: words) items (word :: operands)
  | shorts {c : UInt8} {cs : Word} {words : List Word} {items : List Item}
      {operands : List Word} (nodash : c ≠ 0x2d) (short : ∀ d ∈ c :: cs, t.short d = true)
      (alone : cs = [] ∨ ∀ o ∈ t.long, ¬ nameOf (c :: cs) <+: o.name)
      (rest : Spelled t words items operands) :
      Spelled t ((0x2d :: c :: cs) :: words) ((c :: cs).map .short ++ items) operands
  | flag {name word : Word} {i : Nat} {words : List Word} {items : List Item}
      {operands : List Word} (abbreviates : t.Abbreviates name i) (dashed : Dashed t name word)
      (flag : t.takes i = false) (rest : Spelled t words items operands) :
      Spelled t (word :: words) (.long i none :: items) operands
  | attached {name value word : Word} {i : Nat} {words : List Word} {items : List Item}
      {operands : List Word} (abbreviates : t.Abbreviates name i)
      (dashed : Dashed t (name ++ 0x3d :: value) word) (takes : t.takes i = true)
      (rest : Spelled t words items operands) :
      Spelled t (word :: words) (.long i (some value) :: items) operands
  | separate {name value word : Word} {i : Nat} {words : List Word} {items : List Item}
      {operands : List Word} (abbreviates : t.Abbreviates name i) (dashed : Dashed t name word)
      (takes : t.takes i = true) (rest : Spelled t words items operands) :
      Spelled t (word :: value :: words) (.long i (some value) :: items) operands

/-! ### The scan meets the grammar -/

theorem nameOf_plain {name : Word} (h : 0x3d ∉ name) : nameOf name = name :=
  List.takeWhile_eq_self_iff.mpr fun c hc => by
    have : c ≠ 0x3d := fun heq => h (heq ▸ hc)
    simpa using this

theorem valueOf_plain {name : Word} (h : 0x3d ∉ name) : valueOf name = none := if_neg h

theorem nameOf_attached {name : Word} (h : 0x3d ∉ name) (value : Word) :
    nameOf (name ++ 0x3d :: value) = name := by
  rw [nameOf, List.takeWhile_append, if_pos]
  · simp
  · rw [← nameOf, nameOf_plain h]

theorem valueOf_attached {name : Word} (h : 0x3d ∉ name) (value : Word) :
    valueOf (name ++ 0x3d :: value) = some value := by
  have hname : ∀ c ∈ name, (c != 0x3d) = true := fun c hc => by
    have : c ≠ 0x3d := fun heq => h (heq ▸ hc)
    simpa using this
  rw [valueOf, if_pos (by simp), List.dropWhile_append_of_pos hname]
  simp

/-- A body is its name, or its name and its value with `=` in between. -/
theorem body_cases (body : Word) :
    0x3d ∉ nameOf body ∧ (valueOf body = none ∧ body = nameOf body ∨
      ∃ value, valueOf body = some value ∧ body = nameOf body ++ 0x3d :: value) := by
  have hname : 0x3d ∉ nameOf body := fun hmem => by
    have := List.mem_takeWhile_imp hmem
    simp at this
  refine ⟨hname, ?_⟩
  by_cases hmem : (0x3d : UInt8) ∈ body
  · right
    refine ⟨(body.dropWhile (· != 0x3d)).tail, if_pos hmem, ?_⟩
    have hsplit := List.takeWhile_append_dropWhile (p := (· != (0x3d : UInt8))) (l := body)
    rcases hrest : body.dropWhile (· != (0x3d : UInt8)) with _ | ⟨c, rest⟩
    · rw [List.dropWhile_eq_nil_iff] at hrest
      exact absurd (hrest _ hmem) (by simp)
    · have hc : c = 0x3d := by
        have := List.head?_dropWhile_not (· != (0x3d : UInt8)) body
        rw [hrest] at this
        simpa using this
      rw [hrest, hc] at hsplit
      exact hsplit.symm
  · exact .inl ⟨if_neg hmem, (nameOf_plain hmem).symm⟩

theorem Table.Abbreviates.plain {name : Word} {i : Nat} (h : t.Abbreviates name i) :
    0x3d ∉ name := by
  obtain ⟨o, ho, hbegins, -⟩ := h
  exact fun hmem => t.plain o (List.mem_of_getElem? ho) (hbegins.subset hmem)

/-- What follows the name of an option in its word. -/
def attachment : Option Word → Word
  | none => []
  | some value => 0x3d :: value

theorem body_eq (body : Word) : body = nameOf body ++ attachment (valueOf body) := by
  obtain ⟨-, ⟨hvalue, hbody⟩ | ⟨value, hvalue, hbody⟩⟩ := body_cases body
  · rwa [hvalue, attachment, List.append_nil]
  · rwa [hvalue, attachment]

theorem nameOf_append {name : Word} (h : 0x3d ∉ name) (value : Option Word) :
    nameOf (name ++ attachment value) = name := by
  cases value with
  | none => rw [attachment, List.append_nil, nameOf_plain h]
  | some value => exact nameOf_attached h value

theorem valueOf_append {name : Word} (h : 0x3d ∉ name) (value : Option Word) :
    valueOf (name ++ attachment value) = value := by
  cases value with
  | none => rw [attachment, List.append_nil, valueOf_plain h]
  | some value => exact valueOf_attached h value

theorem Dashed.classify {body word : Word} (h : Dashed t body word) {i : Nat}
    (hfound : t.resolve (nameOf body) = .found i) :
    t.classify word = .long i (valueOf body) := by
  cases h with
  | two nonempty =>
      rw [Table.classify, if_neg nonempty, hfound]
  | @one c rest nodash long =>
      rw [Table.classify]
      · rw [if_neg, hfound]
        rintro ⟨hnil, hshort⟩
        obtain hne | hno := long
        · exact hne hnil
        · rw [hno] at hshort
          cases hshort
      · exact nodash

/-- A word is a long option with what is attached to it if and only if it is written so. -/
theorem classify_long {word : Word} {i : Nat} {value : Option Word} :
    t.classify word = .long i value ↔
      ∃ name, t.Abbreviates name i ∧ Dashed t (name ++ attachment value) word := by
  constructor
  · intro h
    have found {body : Word} (hbody : Dashed t body word)
        (hfound : t.resolve (nameOf body) = .found i) (hvalue : valueOf body = value) :
        ∃ name, t.Abbreviates name i ∧ Dashed t (name ++ attachment value) word := by
      refine ⟨nameOf body, resolve_found.mp hfound, ?_⟩
      rwa [← hvalue, ← body_eq]
    revert h
    fun_cases Table.classify t word with
    | case1 => simp
    | case2 body hne j hfound =>
        intro h
        obtain ⟨rfl, rfl⟩ : j = i ∧ valueOf body = value := by simpa using h
        exact found (.two hne) hfound rfl
    | case3 => simp
    | case4 => simp
    | case5 c rest hdash hlone j hfound =>
        intro h
        obtain ⟨rfl, rfl⟩ : j = i ∧ valueOf (c :: rest) = value := by simpa using h
        refine found (.one hdash ?_) hfound rfl
        by_cases hnil : rest = []
        · exact .inr (by simpa [hnil] using hlone)
        · exact .inl hnil
    | case6 => simp
    | case7 => simp
    | case8 => simp
    | case9 => simp
  · rintro ⟨name, habbreviates, hdashed⟩
    have hplain := habbreviates.plain
    have hname := nameOf_append hplain value
    rw [hdashed.classify (hname.symm ▸ resolve_found.mpr habbreviates), valueOf_append hplain]

theorem classify_operand {word : Word} : t.classify word = .operand ↔ Operand word := by
  constructor
  · fun_cases Table.classify t word with
    | case9 word hshape hlone =>
        intro _
        rw [Operand]
        rcases word with _ | ⟨c, _ | ⟨d, rest⟩⟩
        · simp
        · by_cases hc : c = 0x2d <;> simp [hc]
        · refine .inl fun hc => ?_
          obtain rfl : c = 0x2d := by simpa using hc
          exact hlone d rest rfl
    | _ => simp
  · rintro (hhead | rfl)
    · rcases word with _ | ⟨c, rest⟩
      · rfl
      · rw [Table.classify]
        · rintro body ⟨⟩
          exact hhead rfl
        · rintro d rest ⟨⟩
          exact hhead rfl
    · rfl

theorem classify_terminator {word : Word} :
    t.classify word = .terminator ↔ word = [0x2d, 0x2d] := by
  constructor
  · fun_cases Table.classify t word with
    | case1 => simp
    | _ => simp
  · rintro rfl
    rfl

theorem classify_shorts {word cs : Word} : t.classify word = .shorts cs ↔
    ∃ c rest, cs = c :: rest ∧ word = 0x2d :: cs ∧ c ≠ 0x2d ∧ t.short c = true ∧
      (rest = [] ∨ ∀ o ∈ t.long, ¬ nameOf cs <+: o.name) := by
  constructor
  · fun_cases Table.classify t word with
    | case4 c rest hdash hlone =>
        intro h
        obtain rfl : [c] = cs := by simpa using h
        exact ⟨c, [], rfl, by rw [hlone.1], hdash, hlone.2, .inl rfl⟩
    | case6 c rest hdash hlone hmissing hshort =>
        intro h
        obtain rfl : c :: rest = cs := by simpa using h
        exact ⟨c, rest, rfl, rfl, hdash, hshort, .inr (resolve_missing.mp hmissing)⟩
    | _ => simp
  · rintro ⟨c, rest, rfl, rfl, hdash, hshort, hrest⟩
    rw [Table.classify]
    · by_cases hnil : rest = []
      · rw [if_pos ⟨hnil, hshort⟩, hnil]
      · rw [if_neg fun h => hnil h.1, resolve_missing.mpr (hrest.resolve_left hnil)]
        exact if_pos hshort
    · exact hdash

/-! #### One word of the scan -/

theorem getopt_operand {word : Word} (h : Operand word) (words : List Word) :
    getoptLongOnly t (word :: words) = prepend [] [word] (getoptLongOnly t words) := by
  rw [getoptLongOnly, classify_operand.mpr h]

theorem getopt_flag {word : Word} {i : Nat} (h : t.classify word = .long i none)
    (hflag : t.takes i = false) (words : List Word) :
    getoptLongOnly t (word :: words) = prepend [.long i none] [] (getoptLongOnly t words) := by
  rw [getoptLongOnly, h]
  simp [hflag]

theorem getopt_attached {word value : Word} {i : Nat} (h : t.classify word = .long i (some value))
    (htakes : t.takes i = true) (words : List Word) :
    getoptLongOnly t (word :: words) =
      prepend [.long i (some value)] [] (getoptLongOnly t words) := by
  rw [getoptLongOnly, h]
  simp [htakes]

theorem getopt_separate {word : Word} {i : Nat} (h : t.classify word = .long i none)
    (htakes : t.takes i = true) (value : Word) (words : List Word) :
    getoptLongOnly t (word :: value :: words) =
      prepend [.long i (some value)] [] (getoptLongOnly t words) := by
  rw [getoptLongOnly, h]
  simp [htakes]

theorem map_shortItem {cs : Word} (h : ∀ d ∈ cs, t.short d = true) :
    cs.map t.shortItem = cs.map .short :=
  List.map_congr_left fun d hd => if_pos (h d hd)

theorem short_of_shortItem {cs : Word} (h : .unknown ∉ cs.map t.shortItem) :
    ∀ d ∈ cs, t.short d = true := by
  intro d hd
  by_contra hno
  exact h (List.mem_map.mpr ⟨d, hd, if_neg hno⟩)

theorem Spelled.scanned {words : List Word} {items : List Item} {operands : List Word}
    (h : Spelled t words items operands) :
    getoptLongOnly t words = (items, operands) ∧ .unknown ∉ items := by
  induction h with
  | nil => exact ⟨rfl, List.not_mem_nil⟩
  | terminator operands => exact ⟨rfl, List.not_mem_nil⟩
  | @operand word words items operands operand rest ih =>
      refine ⟨?_, ih.2⟩
      rw [getopt_operand operand, ih.1, prepend]
      rfl
  | @shorts c cs words items operands nodash short alone rest ih =>
      have hclassify : t.classify (0x2d :: c :: cs) = .shorts (c :: cs) :=
        classify_shorts.mpr ⟨c, cs, rfl, rfl, nodash, short c List.mem_cons_self, alone⟩
      refine ⟨?_, ?_⟩
      · rw [getoptLongOnly, hclassify]
        dsimp only
        rw [ih.1, map_shortItem short, prepend]
        rfl
      · rw [List.mem_append, not_or]
        exact ⟨by simp, ih.2⟩
  | @flag name word i words items operands abbreviates dashed flag rest ih =>
      have hclassify : t.classify word = .long i none :=
        classify_long.mpr ⟨name, abbreviates, (List.append_nil name).symm ▸ dashed⟩
      refine ⟨?_, by simpa using ih.2⟩
      rw [getopt_flag hclassify flag, ih.1]
      rfl
  | @attached name value word i words items operands abbreviates dashed takes rest ih =>
      have hclassify : t.classify word = .long i (some value) :=
        classify_long.mpr ⟨name, abbreviates, dashed⟩
      refine ⟨?_, by simpa using ih.2⟩
      rw [getopt_attached hclassify takes, ih.1]
      rfl
  | @separate name value word i words items operands abbreviates dashed takes rest ih =>
      have hclassify : t.classify word = .long i none :=
        classify_long.mpr ⟨name, abbreviates, (List.append_nil name).symm ▸ dashed⟩
      refine ⟨?_, by simpa using ih.2⟩
      rw [getopt_separate hclassify takes, ih.1]
      rfl

theorem spelled_of_scanned (words : List Word) (h : .unknown ∉ (getoptLongOnly t words).1) :
    Spelled t words (getoptLongOnly t words).1 (getoptLongOnly t words).2 := by
  have apart {items rest : List Item} (h : .unknown ∉ items ++ rest) :
      .unknown ∉ items ∧ .unknown ∉ rest := by
    rwa [List.mem_append, not_or] at h
  fun_induction getoptLongOnly t words with
  | case1 => exact .nil
  | case2 word words hclass ih =>
      exact .operand (classify_operand.mp hclass) (ih (apart h).2)
  | case3 word words hclass =>
      obtain rfl := classify_terminator.mp hclass
      exact .terminator words
  | case4 word words cs hclass ih =>
      obtain ⟨c, rest, rfl, rfl, hdash, -, halone⟩ := classify_shorts.mp hclass
      have hshort := short_of_shortItem (apart h).1
      rw [prepend, map_shortItem hshort]
      exact .shorts hdash hshort halone (ih (apart h).2)
  | case5 word i htakes words value hclass ih =>
      obtain ⟨name, habbreviates, hdashed⟩ := classify_long.mp hclass
      exact .attached habbreviates hdashed htakes (ih (apart h).2)
  | case6 word i htakes value words hclass ih =>
      obtain ⟨name, habbreviates, hdashed⟩ := classify_long.mp hclass
      exact .separate habbreviates (List.append_nil name ▸ hdashed) htakes (ih (apart h).2)
  | case7 => simp at h
  | case8 word words i hflag hclass ih =>
      obtain ⟨name, habbreviates, hdashed⟩ := classify_long.mp hclass
      exact .flag habbreviates (List.append_nil name ▸ hdashed) (by simpa using hflag)
        (ih (apart h).2)
  | case9 => simp [prepend] at h
  | case10 => simp [prepend] at h

/-- The scan finds no mistake in a command line if and only if it is correct, and then finds
what it says. -/
theorem spelled_iff {words : List Word} {items : List Item} {operands : List Word} :
    Spelled t words items operands ↔
      getoptLongOnly t words = (items, operands) ∧ .unknown ∉ items := by
  refine ⟨Spelled.scanned, ?_⟩
  rintro ⟨hscan, hno⟩
  have h := spelled_of_scanned (t := t) words
  rw [hscan] at h
  exact h hno

/-! #### Names in full -/

theorem Table.abbreviates_full {i : Nat} {o : LongOption} (ho : t.long[i]? = some o) :
    t.Abbreviates o.name i := ⟨o, ho, List.prefix_rfl, .inl rfl⟩

section Full

variable {i : Nat} {name : Word} {words operands : List Word} {items : List Item}

theorem Spelled.full_flag (ho : t.long[i]? = some ⟨name, false⟩) (hname : name ≠ [])
    (h : Spelled t words items operands) :
    Spelled t ((0x2d :: 0x2d :: name) :: words) (.long i none :: items) operands :=
  .flag (t.abbreviates_full ho) (.two hname) (by rw [Table.takes, ho]; rfl) h

theorem Spelled.full_separate (ho : t.long[i]? = some ⟨name, true⟩) (hname : name ≠ [])
    (value : Word) (h : Spelled t words items operands) :
    Spelled t ((0x2d :: 0x2d :: name) :: value :: words) (.long i (some value) :: items)
      operands :=
  .separate (t.abbreviates_full ho) (.two hname) (by rw [Table.takes, ho]; rfl) h

theorem Spelled.full_attached (ho : t.long[i]? = some ⟨name, true⟩) (value : Word)
    (h : Spelled t words items operands) :
    Spelled t ((0x2d :: 0x2d :: (name ++ 0x3d :: value)) :: words) (.long i (some value) :: items)
      operands :=
  .attached (t.abbreviates_full ho) (.two (by simp)) (by rw [Table.takes, ho]; rfl) h

end Full

end Getopt
