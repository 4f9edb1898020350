import Guppy.Vfs.Path

set_option autoImplicit false

/-! # Versions and dependency fields

`src/deb_version.c` compares Debian version texts, and `src/deb_dep.c` reads a relationship
field: groups separated by commas, each a list of alternatives separated by bars. The texts are
those of C strings, without their terminating zero.
-/

namespace Guppy.Pkg

open Vfs

def isDigit (c : UInt8) : Bool := 48 ≤ c ∧ c ≤ 57

/-- `isalnum`. -/
def isAlnum (c : UInt8) : Bool := isDigit c ∨ (65 ≤ c ∧ c ≤ 90) ∨ (97 ≤ c ∧ c ≤ 122)

/-- `isspace`. -/
def isBlank (c : UInt8) : Bool := c = 32 ∨ (9 ≤ c ∧ c ≤ 13)

/-! ## Versions -/

/-- `order_char`; the end of a text counts as 0. -/
def orderChar : Option UInt8 → Int
  | none => 0
  | some c => if c = 126 then -1 else if isAlnum c then c.toNat else c.toNat + 256

/-- The text goes on with something that is not a digit. -/
def startsNonDigit (t : Text) : Bool := t.head?.any (fun c => !isDigit c)

/-- The inner loop of `verrevcmp`: the parts that are not digits decide, or both texts go on with
digits or end. -/
def cmpNonDigits : Nat → Text → Text → Except Int (Text × Text)
  | 0, a, b => .ok (a, b)
  | fuel + 1, a, b =>
      if startsNonDigit a = true ∨ startsNonDigit b = true then
        if orderChar a.head? ≠ orderChar b.head? then
          .error (if orderChar a.head? < orderChar b.head? then -1 else 1)
        else cmpNonDigits fuel a.tail b.tail
      else .ok (a, b)

/-- The value of a run of digits. -/
def digitsValue (t : Text) : Nat := t.foldl (fun v c => v * 10 + (c.toNat - 48)) 0

/-- `verrevcmp`. Runs of digits of one length compare by `strncmp` as their values do. -/
def verrevcmp : Nat → Text → Text → Int
  | 0, _, _ => 0
  | fuel + 1, a, b =>
      if a = [] ∧ b = [] then 0
      else
        match cmpNonDigits (a.length + b.length) a b with
        | .error c => c
        | .ok (a, b) =>
            let a := a.dropWhile (· = 48)
            let b := b.dropWhile (· = 48)
            let da := a.takeWhile isDigit
            let db := b.takeWhile isDigit
            if da.length ≠ db.length then (if da.length < db.length then -1 else 1)
            else if digitsValue da ≠ digitsValue db then
              (if digitsValue da < digitsValue db then -1 else 1)
            else verrevcmp fuel (a.drop da.length) (b.drop db.length)

/-- `verrevcmp` with enough fuel: every iteration reads something of the texts. -/
def revisionCompare (a b : Text) : Int := verrevcmp (a.length + b.length + 1) a b

/-- `parse_epoch`: the epoch, and the text after it. -/
def parseEpoch (s : Text) : Nat × Text :=
  let e := s.takeWhile (· ≠ 58)
  if 58 ∈ s ∧ e.all isDigit = true then (min (digitsValue e) 18446744073709551615, s.drop (e.length + 1))
  else (0, s)

/-- The text before the last dash, and the text after it if there is a dash. -/
def splitRevision (s : Text) : Text × Option Text :=
  if 45 ∈ s then
    let rev := (s.reverse.takeWhile (· ≠ 45)).reverse
    (s.take (s.length - rev.length - 1), some rev)
  else (s, none)

/-- `deb_version_compare`: negative, zero or positive. -/
def debVersionCompare (a b : Text) : Int :=
  let (ae, ar) := parseEpoch a
  let (be, br) := parseEpoch b
  if ae ≠ be then (if ae < be then -1 else 1)
  else
    let (au, adash) := splitRevision ar
    let (bu, bdash) := splitRevision br
    let c := revisionCompare (au.take 255) (bu.take 255)
    if c ≠ 0 then c else revisionCompare (adash.getD [48]) (bdash.getD [48])

/-- `deb_version_satisfies`. The operators are `=`, `>=`, `>>=`, `<=`, `<<=`, `>>` and `<<`. -/
def debVersionSatisfies (have_ op want : Text) : Bool :=
  if op = [] ∨ want = [] then true
  else
    let c := debVersionCompare have_ want
    if op = [61] then c = 0
    else if op = [62, 61] ∨ op = [62, 62, 61] then 0 ≤ c
    else if op = [60, 61] ∨ op = [60, 60, 61] then c ≤ 0
    else if op = [62, 62] then 0 < c
    else if op = [60, 60] then c < 0
    else false

theorem cmpNonDigits_self (fuel : Nat) : ∀ t : Text, ∃ u, cmpNonDigits fuel t t = .ok (u, u) := by
  induction fuel with
  | zero => exact fun t => ⟨t, rfl⟩
  | succ fuel ih =>
      intro t
      unfold cmpNonDigits
      split
      · rw [if_neg (by simp)]
        exact ih t.tail
      · exact ⟨t, rfl⟩

theorem verrevcmp_self (fuel : Nat) : ∀ t : Text, verrevcmp fuel t t = 0 := by
  induction fuel with
  | zero => exact fun _ => rfl
  | succ fuel ih =>
      intro t
      unfold verrevcmp
      split
      · rfl
      · obtain ⟨u, hu⟩ := cmpNonDigits_self (t.length + t.length) t
        rw [hu]
        dsimp only []
        rw [if_neg (by simp), if_neg (by simp)]
        exact ih _

theorem debVersionCompare_self (t : Text) : debVersionCompare t t = 0 := by
  unfold debVersionCompare
  dsimp only []
  rw [if_neg (by simp)]
  unfold revisionCompare
  rw [verrevcmp_self, if_neg (by simp), verrevcmp_self]

/-! ## Dependency fields -/

/-- `deb_dep_alt_t`. The architecture qualifier and the restrictions are read and not used. -/
structure Alt where
  name : Text
  op : Text
  version : Text
  deriving DecidableEq

/-- `trimcopy` into a buffer of `cap` bytes. -/
def trimCopy (cap : Nat) (t : Text) : Text :=
  (((t.dropWhile isBlank).reverse.dropWhile isBlank).reverse).take (cap - 1)

/-- The constraint in parentheses at the front of a text; a constraint that is not closed is an
error. -/
def parseConstraint (t : Text) : Option (Text × Text) :=
  match t with
  | 40 :: t =>
      let t := t.dropWhile isBlank
      let op := t.takeWhile (fun c => c = 60 ∨ c = 62 ∨ c = 61)
      let rest := (t.drop op.length).dropWhile isBlank
      if 41 ∈ rest then some (trimCopy 4 op, trimCopy 128 (rest.takeWhile (· ≠ 41))) else none
  | _ => some ([], [])

/-- `parse_alt`. -/
def parseAlt (t : Text) : Option Alt :=
  let t := t.dropWhile isBlank
  let name := t.takeWhile (fun c => isAlnum c ∨ c = 43 ∨ c = 45 ∨ c = 46)
  if name = [] then none
  else
    let t := t.drop name.length
    let t :=
      match t with
      | 58 :: t => t.dropWhile (fun c => isAlnum c ∨ c = 45)
      | t => t
    (parseConstraint (t.dropWhile isBlank)).map (fun c => ⟨trimCopy 128 name, c.1, c.2⟩)

/-- How deep a text is inside parentheses, brackets and angle brackets. -/
structure Depth where
  par : Nat
  br : Nat
  profile : Nat
  deriving DecidableEq

def Depth.next (d : Depth) (c : UInt8) : Depth :=
  if c = 40 then { d with par := d.par + 1 }
  else if c = 41 then { d with par := d.par - 1 }
  else if c = 91 then { d with br := d.br + 1 }
  else if c = 93 then { d with br := d.br - 1 }
  else if c = 60 ∧ d.par = 0 then { d with profile := d.profile + 1 }
  else if c = 62 ∧ d.par = 0 then { d with profile := d.profile - 1 }
  else d

/-- The pieces of a text between the separators that are not inside anything. A last piece that
ends inside something is lost. -/
def splitTop (sep : UInt8) : Depth → Text → Text → List Text
  | d, cur, [] => if d = ⟨0, 0, 0⟩ then [cur] else []
  | d, cur, c :: t =>
      if c = sep ∧ d.next c = ⟨0, 0, 0⟩ then cur :: splitTop sep ⟨0, 0, 0⟩ [] t
      else splitTop sep (d.next c) (cur ++ [c]) t

/-- `DEB_DEP_MAX_GROUPS` and `DEB_DEP_MAX_ALTS`. -/
def debDepMaxGroups : Nat := 128
def debDepMaxAlts : Nat := 8

/-- The alternatives of a group. -/
def parseGroup (t : Text) : Option (List Alt) :=
  let alts := splitTop 124 ⟨0, 0, 0⟩ [] t
  if debDepMaxAlts < alts.length then none else alts.mapM parseAlt

/-- `deb_dep_parse`. -/
def debDepParse (t : Text) : Option (List (List Alt)) :=
  if t = [] then some []
  else
    let groups := splitTop 44 ⟨0, 0, 0⟩ [] t
    if debDepMaxGroups < groups.length then none else groups.mapM parseGroup

/-- `libc6 (>= 2.36), perl | mawk` -/
example : debDepParse [108, 105, 98, 99, 54, 32, 40, 62, 61, 32, 50, 46, 51, 54, 41, 44, 32, 112, 101,
    114, 108, 32, 124, 32, 109, 97, 119, 107] =
    some [[⟨[108, 105, 98, 99, 54], [62, 61], [50, 46, 51, 54]⟩],
      [⟨[112, 101, 114, 108], [], []⟩, ⟨[109, 97, 119, 107], [], []⟩]] := by decide +kernel

end Guppy.Pkg
