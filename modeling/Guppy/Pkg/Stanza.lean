import Guppy.Pkg.Control

set_option autoImplicit false

/-! # The stanza of an installed package

`write_status_stanza` of `src/cmd_pkg.c` renders the control record of a package for the status
database, and `deb_control_parse` reads such stanzas. On reading, the lines of a folded field are
joined with newlines. On writing, only the description is folded again: another field with a newline
in it is written as it is, and what is behind the newline becomes a line of its own.
-/

namespace Guppy.Pkg

open Vfs Archive

/-! ## The writer -/

/-- The size of the buffer for a line. -/
def lineSize : Nat := 4608

/-- `status_field` -/
def statusField (name value : Text) : Option Text :=
  if value = [] then some []
  else
    let line := name ++ ascii ": " ++ value ++ [10]
    if lineSize ≤ line.length then none else some line

/-- The loop of `status_description` over the lines behind the first. -/
def descriptionLines : Nat → Text → Option Text
  | 0, _ => some []
  | fuel + 1, p =>
      if p = [] then some []
      else
        let line := p.takeWhile (· ≠ 10)
        if lineSize ≤ line.length + 3 then none
        else (descriptionLines fuel ((p.dropWhile (· ≠ 10)).drop 1)).map (32 :: (line ++ [10]) ++ ·)

/-- `status_description` -/
def statusDescription (value : Text) : Option Text :=
  if value = [] then some []
  else
    let line := value.takeWhile (· ≠ 10)
    if lineSize ≤ line.length + 15 then none
    else
      (descriptionLines value.length ((value.dropWhile (· ≠ 10)).drop 1)).map
        (ascii "Description: " ++ line ++ [10] ++ ·)

/-- The fields of a list, one after the other. -/
def statusFields (m : Control) : List ControlKey → Option Text
  | [] => some []
  | k :: ks => do
      let line ← statusField k.name (m.text k)
      let rest ← statusFields m ks
      some (line ++ rest)

/-- The fields before and behind the status. -/
def fieldsBefore : List ControlKey := [.package, .essential]

def fieldsBehind : List ControlKey :=
  [.priority, .section_, .installedSize, .maintainer, .architecture, .version, .preDepends, .depends, .recommends, .suggests]

/-- `Status: install ok unpacked` -/
def statusUnpacked : Text := ascii "Status: install ok unpacked"

/-- The text that `write_status_stanza` appends to the status file. -/
def writeStatusStanza (m : Control) : Option Text := do
  let before ← statusFields m fieldsBefore
  let behind ← statusFields m fieldsBehind
  let description ← statusDescription (m.text .description)
  some (before ++ statusUnpacked ++ [10] ++ behind ++ description ++ [10])

/-! ## What the parser leaves -/

/-- Behind a newline comes no blank. -/
def LineStarts (v : Text) : Prop := List.IsChain (fun a b => a = 10 → isTab b = false) v

/-- No line of a value starts with a blank, and the value does not start with a newline. -/
structure Unfolded (v : Text) : Prop where
  noNul : 0 ∉ v
  first : ∀ c, v.head? = some c → isTab c = false ∧ c ≠ 10
  lines : LineStarts v

theorem unfolded_nil : Unfolded [] := ⟨(fun h => by cases h), (fun c h => by cases h), List.IsChain.nil⟩

/-- The first byte of the start of a text. -/
theorem head?_of_start {u v : Text} (h : u <+: v) : ∀ c, u.head? = some c → v.head? = some c := by
  obtain ⟨w, rfl⟩ := h
  intro c hc
  rw [List.head?_append, hc]
  rfl

/-- The start of such a value. -/
theorem Unfolded.start {u v : Text} (h : Unfolded v) (hu : u <+: v) : Unfolded u :=
  ⟨fun h0 => h.noNul (hu.subset h0), fun c hc => h.first c (head?_of_start hu c hc), h.lines.prefix hu⟩

theorem lineStarts_of_line {v : Text} (h10 : 10 ∉ v) : LineStarts v := by
  unfold LineStarts
  induction v with
  | nil => exact List.IsChain.nil
  | cons c v ih =>
      rw [List.isChain_cons]
      refine ⟨fun d _ hc => ?_, ih (fun h => h10 (List.mem_cons_of_mem _ h))⟩
      exact absurd (hc ▸ List.mem_cons_self ..) h10

theorem head_dropWhile_tab (t : Text) : ∀ c, (t.dropWhile isTab).head? = some c → isTab c = false := by
  intro c hc
  have := List.head?_dropWhile_not isTab t
  rw [hc] at this
  simpa using this

/-- The start of a line behind its blanks, as far as it has no NUL. -/
theorem unfolded_trimmed {t : Text} {q : UInt8 → Bool} (n : Nat) (h10 : 10 ∉ t) :
    Unfolded (cText (((t.dropWhile isTab).rdropWhile q).take n)) := by
  have hpre : cText (((t.dropWhile isTab).rdropWhile q).take n) <+: t.dropWhile isTab :=
    (List.takeWhile_prefix _).trans ((List.take_prefix _ _).trans (List.rdropWhile_prefix _ _))
  have hline : 10 ∉ cText (((t.dropWhile isTab).rdropWhile q).take n) :=
    fun h => h10 ((List.dropWhile_suffix _).subset (hpre.subset h))
  refine ⟨cText_noNul _, fun c hc => ⟨head_dropWhile_tab t c (head?_of_start hpre c hc), ?_⟩, lineStarts_of_line hline⟩
  rintro rfl
  exact hline (List.mem_of_mem_head? hc)

theorem unfolded_copyValue (cap : Nat) {v : Text} (h10 : 10 ∉ v) : Unfolded (copyValue cap v) :=
  unfolded_trimmed (cap - 1) h10

theorem unfolded_appendContinuation {cap : Nat} {dst line : Text} (hdst : Unfolded dst) (hcap : dst.length < cap)
    (h10 : 10 ∉ line) : Unfolded (appendContinuation cap dst line) := by
  unfold appendContinuation
  dsimp only []
  by_cases hempty : dst = []
  · subst hempty
    rw [if_neg (by simp), List.nil_append]
    exact unfolded_trimmed _ h10
  · obtain ⟨p, hp⟩ : ∃ p, p = (line.dropWhile isTab).rdropWhile isEol := ⟨_, rfl⟩
    have hpre : p <+: line.dropWhile isTab := hp ▸ List.rdropWhile_prefix _ _
    have hp10 : 10 ∉ p := fun h => h10 ((List.dropWhile_suffix _).subset (hpre.subset h))
    rw [← hp]
    by_cases hroom : dst.length + 1 < cap
    · rw [if_pos ⟨hempty, hroom⟩, List.append_assoc, List.singleton_append]
      obtain ⟨q, hq⟩ : ∃ q, q = p.take (cap - (dst ++ [10]).length - 1) := ⟨_, rfl⟩
      have hqp : q <+: line.dropWhile isTab := hq ▸ (List.take_prefix _ _).trans hpre
      have hq10 : 10 ∉ q := fun h => hp10 ((List.take_prefix _ _).subset (hq ▸ h))
      rw [← hq]
      refine ⟨cText_noNul _, fun c hc => ?_, ?_⟩
      · have hhead := head?_of_start (List.takeWhile_prefix _) c hc
        obtain ⟨d, dst, rfl⟩ := List.exists_cons_of_ne_nil hempty
        exact hdst.first c hhead
      · -- a line starts in the old value, or it is the new one
        refine List.IsChain.prefix ?_ (List.takeWhile_prefix _)
        rw [List.isChain_append, List.isChain_cons]
        refine ⟨hdst.lines, ⟨fun c hc _ => head_dropWhile_tab line c (head?_of_start hqp c hc), lineStarts_of_line hq10⟩, ?_⟩
        intro c _ d hd _
        cases hd
        decide
    · rw [if_neg (fun h => hroom h.2), show cap - dst.length - 1 = 0 by omega, List.take_zero, List.append_nil]
      exact hdst.start (List.takeWhile_prefix _)

theorem length_copyValue_lt {cap : Nat} (hcap : 0 < cap) (v : Text) : (copyValue cap v).length < cap := by
  have h := length_cText_le ((((v.dropWhile isTab).rdropWhile (fun c => isEol c || isTab c))).take (cap - 1))
  rw [List.length_take] at h
  unfold copyValue
  omega

theorem length_appendContinuation_lt {cap : Nat} {dst line : Text} (hdst : dst.length < cap) :
    (appendContinuation cap dst line).length < cap := by
  unfold appendContinuation
  dsimp only []
  refine lt_of_le_of_lt (length_cText_le _) ?_
  rw [List.length_append, List.length_take]
  split
  · rename_i h
    rw [List.length_append, List.length_singleton]
    omega
  · omega

/-- What is known of a record that was read. -/
def WasRead (c : Control) : Prop := ∀ k, Unfolded (c.text k) ∧ (c.text k).length < k.cap

theorem cap_pos (k : ControlKey) : 0 < k.cap := by
  cases k <;> decide

theorem wasRead_put {c : Control} {k : ControlKey} {t : Text} (hc : WasRead c) (ht : Unfolded t ∧ t.length < k.cap) :
    WasRead (c.put k t) := by
  intro k'
  by_cases hk : k' = k
  · subst hk
    rw [show (c.put k' t).text k' = t from if_pos rfl]
    exact ht
  · rw [show (c.put k t).text k' = c.text k' from if_neg hk]
    exact hc k'

theorem fieldOf_value {line name v : Text} (h : fieldOf line = some (name, v)) : ∀ c ∈ v, c ∈ line := by
  unfold fieldOf at h
  split at h
  · cases h
    exact fun c hc => (List.dropWhile_suffix _).subset ((List.drop_suffix _ _).subset hc)
  · cases h

theorem wasRead_controlLine {c : Control} {line : Text} (hc : WasRead c) (h10 : 10 ∉ line) :
    WasRead (controlLine ControlKey.cap c line) := by
  unfold controlLine
  split
  · exact hc
  · split
    · cases c.current with
      | none => exact hc
      | some k =>
          exact wasRead_put hc ⟨unfolded_appendContinuation (hc k).1 (hc k).2 h10, length_appendContinuation_lt (hc k).2⟩
    · cases hf : fieldOf line with
      | none => exact hc
      | some f =>
          obtain ⟨name, v⟩ := f
          dsimp only []
          cases controlField name with
          | none => exact hc
          | some k =>
              exact wasRead_put hc ⟨unfolded_copyValue k.cap (fun h => h10 (fieldOf_value hf 10 h)),
                length_copyValue_lt (cap_pos k) v⟩

theorem wasRead_foldl (lines : List Text) : ∀ {c : Control}, WasRead c → (∀ l ∈ lines, 10 ∉ l) →
    WasRead (lines.foldl (controlLine ControlKey.cap) c) := by
  induction lines with
  | nil => exact fun hc _ => hc
  | cons l lines ih =>
      intro c hc h10
      exact ih (wasRead_controlLine hc (h10 l (List.mem_cons_self ..))) (fun l hl => h10 l (List.mem_cons_of_mem _ hl))

theorem chomp_start (l : Text) : chomp l <+: l := by
  unfold chomp
  split
  · exact List.dropLast_prefix l
  · exact List.prefix_refl l

theorem newline_not_mem_linesFrom (fuel : Nat) : ∀ {t : Text}, ∀ l ∈ linesFrom fuel t, 10 ∉ l := by
  induction fuel with
  | zero =>
      intro t l hl
      cases hl
  | succ fuel ih =>
      intro t l hl
      cases t with
      | nil => cases hl
      | cons c t =>
          rcases List.mem_cons.mp hl with rfl | hl
          · intro h
            have := List.mem_takeWhile_imp ((chomp_start _).subset h)
            simp at this
          · exact ih l hl

theorem wasRead_debControlParse (text : Text) : WasRead (debControlParse text).2 :=
  wasRead_foldl _ (fun k => ⟨unfolded_nil, cap_pos k⟩) (newline_not_mem_linesFrom _)

/-! ## Lines of a value -/

/-- The pieces between newlines. -/
def valueLines : Text → List Text
  | [] => [[]]
  | c :: t => if c = 10 then [] :: valueLines t else (valueLines t).modifyHead (c :: ·)

/-- Lines with newlines between them. -/
def joinLines (first : Text) (rest : List Text) : Text := first ++ rest.flatMap (fun l => 10 :: l)

theorem valueLines_spec (v : Text) : ∃ first rest, valueLines v = first :: rest ∧ v = joinLines first rest ∧ 10 ∉ first ∧
    ∀ l ∈ rest, 10 ∉ l := by
  induction v with
  | nil => exact ⟨[], [], rfl, rfl, (fun h => by cases h), (fun l h => by cases h)⟩
  | cons c v ih =>
      obtain ⟨first, rest, hlines, hv, hfirst, hrest⟩ := ih
      by_cases hc : c = 10
      · refine ⟨[], first :: rest, ?_, ?_, (fun h => by cases h), ?_⟩
        · rw [valueLines, if_pos hc, hlines]
        · rw [hc, hv]
          rfl
        · intro l hl
          rcases List.mem_cons.mp hl with rfl | hl
          · exact hfirst
          · exact hrest l hl
      · refine ⟨c :: first, rest, ?_, ?_, ?_, hrest⟩
        · rw [valueLines, if_neg hc, hlines]
          rfl
        · rw [hv]
          rfl
        · rw [List.mem_cons, not_or]
          exact ⟨fun h => hc h.symm, hfirst⟩

theorem linesFrom_cons (n : Nat) (c : UInt8) (t : Text) : linesFrom (n + 1) (c :: t) =
    chomp ((c :: t).takeWhile (· ≠ 10)) :: linesFrom n (((c :: t).dropWhile (· ≠ 10)).drop 1) := rfl

theorem linesFrom_stable (n : Nat) : ∀ {m : Nat} {t : Text}, t.length ≤ n → t.length ≤ m → linesFrom n t = linesFrom m t := by
  induction n with
  | zero =>
      intro m t hn _
      obtain rfl : t = [] := List.length_eq_zero_iff.mp (by omega)
      cases m <;> rfl
  | succ n ih =>
      intro m t hn hm
      cases t with
      | nil => cases m <;> rfl
      | cons c t =>
          cases m with
          | zero => exact absurd hm (by simp)
          | succ m =>
              have hle : ((c :: t).dropWhile (· ≠ 10)).length ≤ t.length + 1 := (List.dropWhile_suffix _).length_le
              rw [linesFrom_cons, linesFrom_cons]
              congr 1
              rw [List.length_cons] at hn hm
              apply ih
              · rw [List.length_drop]
                omega
              · rw [List.length_drop]
                omega

theorem takeWhile_line {l t : Text} (h : 10 ∉ l) : (l ++ 10 :: t).takeWhile (· ≠ 10) = l ∧
    (l ++ 10 :: t).dropWhile (· ≠ 10) = 10 :: t := by
  have hl : ∀ c ∈ l, decide (c ≠ 10) = true := fun c hc => by simpa using fun heq : c = 10 => h (heq ▸ hc)
  rw [List.takeWhile_append_of_pos hl, List.dropWhile_append_of_pos hl, List.takeWhile_cons_of_neg (by decide),
    List.dropWhile_cons_of_neg (by decide), List.append_nil]
  exact ⟨rfl, rfl⟩

/-- A line with its end. -/
theorem linesOf_line {l t : Text} (h : 10 ∉ l) : linesOf (l ++ 10 :: t) = chomp l :: linesOf t := by
  obtain ⟨htake, hdrop⟩ := @takeWhile_line l t h
  have hlen : (l ++ 10 :: t).length = (l ++ t).length + 1 := by
    simp only [List.length_append, List.length_cons]
    omega
  obtain ⟨c, u, hu⟩ : ∃ c u, l ++ 10 :: t = c :: u := by
    cases l with
    | nil => exact ⟨_, _, rfl⟩
    | cons d l => exact ⟨_, _, rfl⟩
  unfold linesOf
  rw [hlen, hu, linesFrom_cons, ← hu, htake, hdrop, List.drop_one, List.tail_cons]
  congr 1
  apply linesFrom_stable
  · rw [List.length_append]
    omega
  · exact le_rfl

theorem linesOf_join (rest : List Text) : ∀ {first t : Text}, 10 ∉ first → (∀ l ∈ rest, 10 ∉ l) →
    linesOf (joinLines first rest ++ 10 :: t) = (first :: rest).map chomp ++ linesOf t := by
  induction rest with
  | nil =>
      intro first t hfirst _
      rw [joinLines, List.flatMap_nil, List.append_nil, linesOf_line hfirst]
      rfl
  | cons l rest ih =>
      intro first t hfirst hrest
      have hsplit : joinLines first (l :: rest) ++ 10 :: t = first ++ 10 :: (joinLines l rest ++ 10 :: t) := by
        unfold joinLines
        simp
      rw [hsplit, linesOf_line hfirst, ih (hrest l (List.mem_cons_self ..)) (fun l hl => hrest l (List.mem_cons_of_mem _ hl))]
      rfl

/-! ## The lines of a stanza -/

theorem chomp_append {a v : Text} (hv : v ≠ []) : chomp (a ++ v) = a ++ chomp v := by
  unfold chomp
  rw [List.getLast?_append_of_ne_nil _ hv, List.dropLast_append_of_ne_nil hv]
  split <;> rfl

theorem cap_le (k : ControlKey) : k.cap ≤ 4096 := by
  cases k <;> decide

theorem length_name_le (k : ControlKey) : k.name.length ≤ 14 := by
  cases k <;> decide

theorem newline_not_mem_name (k : ControlKey) : 10 ∉ k.name ∧ 58 ∉ k.name := by
  cases k <;> decide

/-- The lines that a field makes. -/
def fieldLines (m : Control) (k : ControlKey) : List Text :=
  if m.text k = [] then []
  else
    match valueLines (m.text k) with
    | [] => []
    | first :: rest => chomp (k.name ++ 58 :: 32 :: first) :: rest.map chomp

theorem statusField_lines {m : Control} (hm : WasRead m) (k : ControlKey) :
    ∃ t, statusField k.name (m.text k) = some t ∧ ∀ u, linesOf (t ++ u) = fieldLines m k ++ linesOf u := by
  unfold statusField fieldLines
  by_cases hempty : m.text k = []
  · rw [if_pos hempty, if_pos hempty]
    exact ⟨[], rfl, fun u => rfl⟩
  · obtain ⟨first, rest, hlines, hv, hfirst, hrest⟩ := valueLines_spec (m.text k)
    have hshort := (hm k).2
    have hcap := cap_le k
    have hname := length_name_le k
    have hascii : ascii ": " = [58, 32] := by decide
    have hsize : ¬ lineSize ≤ (k.name ++ ascii ": " ++ m.text k ++ [10]).length := by
      rw [hascii]
      simp only [List.length_append, List.length_cons, List.length_nil, lineSize]
      omega
    have hline : 10 ∉ k.name ++ 58 :: 32 :: first := by
      rw [List.mem_append, List.mem_cons, List.mem_cons]
      rintro (h | h | h | h)
      · exact (newline_not_mem_name k).1 h
      · exact absurd h (by decide)
      · exact absurd h (by decide)
      · exact hfirst h
    rw [if_neg hempty, if_neg hempty, hlines]
    dsimp only []
    rw [if_neg hsize]
    refine ⟨_, rfl, fun u => ?_⟩
    have htext : k.name ++ ascii ": " ++ m.text k ++ [10] ++ u = joinLines (k.name ++ 58 :: 32 :: first) rest ++ 10 :: u := by
      rw [hascii, hv]
      unfold joinLines
      simp
    rw [htext, linesOf_join rest hline hrest]
    rfl

theorem statusFields_lines {m : Control} (hm : WasRead m) (ks : List ControlKey) :
    ∃ t, statusFields m ks = some t ∧ ∀ u, linesOf (t ++ u) = ks.flatMap (fieldLines m) ++ linesOf u := by
  induction ks with
  | nil => exact ⟨[], rfl, fun u => rfl⟩
  | cons k ks ih =>
      obtain ⟨t, ht, hlines⟩ := ih
      obtain ⟨l, hl, hfield⟩ := statusField_lines hm k
      refine ⟨l ++ t, ?_, fun u => ?_⟩
      · rw [statusFields, hl, ht]
        rfl
      · rw [List.append_assoc, hfield, hlines, List.flatMap_cons, List.append_assoc]

/-- The last line is left out when it is empty. -/
def dropEmptyLast (ls : List Text) : List Text := if ls.getLast? = some [] then ls.dropLast else ls

theorem joinLines_eq_nil {first : Text} {rest : List Text} : joinLines first rest = [] ↔ first = [] ∧ rest = [] := by
  unfold joinLines
  rw [List.append_eq_nil_iff, List.flatMap_eq_nil_iff]
  constructor
  · rintro ⟨h, hrest⟩
    refine ⟨h, ?_⟩
    cases rest with
    | nil => rfl
    | cons l rest => cases hrest l (List.mem_cons_self ..)
  · rintro ⟨h, rfl⟩
    exact ⟨h, fun l hl => by cases hl⟩

theorem dropEmptyLast_cons {l l' : Text} {ls : List Text} : dropEmptyLast (l :: l' :: ls) = l :: dropEmptyLast (l' :: ls) := by
  unfold dropEmptyLast
  rw [List.getLast?_cons_cons, List.dropLast_cons_cons]
  split <;> rfl

theorem descriptionLines_lines (rest : List Text) : ∀ {fuel : Nat} {first : Text}, (joinLines first rest).length < fuel →
    (joinLines first rest).length < 4096 → 10 ∉ first → (∀ l ∈ rest, 10 ∉ l) →
    ∃ t, descriptionLines fuel (joinLines first rest) = some t ∧
      ∀ u, linesOf (t ++ u) = (dropEmptyLast (first :: rest)).map (fun l => chomp (32 :: l)) ++ linesOf u := by
  induction rest with
  | nil =>
      intro fuel first hfuel hshort hfirst _
      have hjoin : joinLines first [] = first := List.append_nil _
      rw [hjoin] at hfuel hshort ⊢
      obtain ⟨fuel, rfl⟩ : ∃ n, fuel = n + 1 := ⟨fuel - 1, by omega⟩
      by_cases hempty : first = []
      · subst hempty
        exact ⟨[], rfl, fun u => rfl⟩
      · have hall : ∀ c ∈ first, decide (c ≠ 10) = true := fun c hc => by simpa using fun heq : c = 10 => hfirst (heq ▸ hc)
        have htake : first.takeWhile (· ≠ 10) = first := List.takeWhile_eq_self_iff.mpr hall
        have hdrop : first.dropWhile (· ≠ 10) = [] := List.dropWhile_eq_nil_iff.mpr hall
        have hlast : dropEmptyLast [first] = [first] := if_neg (fun h => hempty (Option.some.inj h))
        refine ⟨32 :: (first ++ [10]), ?_, fun u => ?_⟩
        · rw [descriptionLines, if_neg hempty, htake, hdrop]
          dsimp only []
          rw [if_neg (by unfold lineSize; omega)]
          cases fuel <;> simp [descriptionLines]
        · rw [hlast, show 32 :: (first ++ [10]) ++ u = (32 :: first) ++ 10 :: u by simp, linesOf_line]
          · rfl
          · rw [List.mem_cons, not_or]
            exact ⟨by decide, hfirst⟩
  | cons l rest ih =>
      intro fuel first hfuel hshort hfirst hrest
      have hjoin : joinLines first (l :: rest) = first ++ 10 :: joinLines l rest := by
        unfold joinLines
        simp
      have hlen : (joinLines first (l :: rest)).length = first.length + (joinLines l rest).length + 1 := by
        rw [hjoin, List.length_append, List.length_cons]
        omega
      obtain ⟨fuel, rfl⟩ : ∃ n, fuel = n + 1 := ⟨fuel - 1, by omega⟩
      obtain ⟨htake, hdrop⟩ := @takeWhile_line first (joinLines l rest) hfirst
      obtain ⟨t, ht, hlines⟩ := @ih fuel l (by omega) (by omega) (hrest l (List.mem_cons_self ..))
        (fun l hl => hrest l (List.mem_cons_of_mem _ hl))
      refine ⟨32 :: (first ++ [10]) ++ t, ?_, fun u => ?_⟩
      · rw [hjoin, descriptionLines, if_neg (by simp), htake, hdrop, List.drop_one, List.tail_cons, ht]
        dsimp only []
        rw [if_neg (by unfold lineSize; omega)]
        rfl
      · rw [dropEmptyLast_cons, show 32 :: (first ++ [10]) ++ t ++ u = (32 :: first) ++ 10 :: (t ++ u) by simp, linesOf_line,
          hlines]
        · rfl
        · rw [List.mem_cons, not_or]
          exact ⟨by decide, hfirst⟩

/-- The lines that the description makes. -/
def descLines (m : Control) : List Text :=
  if m.text .description = [] then []
  else
    match valueLines (m.text .description) with
    | [] => []
    | first :: rest =>
        chomp (ascii "Description: " ++ first) :: (dropEmptyLast rest).map (fun l => chomp (32 :: l))

theorem statusDescription_lines {m : Control} (hm : WasRead m) :
    ∃ t, statusDescription (m.text .description) = some t ∧ ∀ u, linesOf (t ++ u) = descLines m ++ linesOf u := by
  unfold statusDescription descLines
  by_cases hempty : m.text .description = []
  · rw [if_pos hempty, if_pos hempty]
    exact ⟨[], rfl, fun u => rfl⟩
  · obtain ⟨first, rest, hlines, hv, hfirst, hrest⟩ := valueLines_spec (m.text .description)
    have hshort := (hm .description).2
    have hcap : ControlKey.description.cap = 4096 := rfl
    have hline : 10 ∉ ascii "Description: " ++ first := by
      rw [List.mem_append, not_or]
      exact ⟨by decide, hfirst⟩
    rw [if_neg hempty, if_neg hempty, hlines]
    dsimp only []
    rw [hv] at hshort ⊢
    cases rest with
    | nil =>
        have hjoin : joinLines first [] = first := List.append_nil _
        have hall : ∀ c ∈ first, decide (c ≠ 10) = true := fun c hc => by simpa using fun heq : c = 10 => hfirst (heq ▸ hc)
        have htake : first.takeWhile (· ≠ 10) = first := List.takeWhile_eq_self_iff.mpr hall
        have hdrop : first.dropWhile (· ≠ 10) = [] := List.dropWhile_eq_nil_iff.mpr hall
        rw [hjoin] at hshort ⊢
        rw [htake, hdrop, if_neg (by unfold lineSize; omega)]
        refine ⟨ascii "Description: " ++ first ++ [10] ++ [], ?_, fun u => ?_⟩
        · cases first.length <;> rfl
        · rw [List.append_nil, List.append_assoc, List.singleton_append, linesOf_line hline]
          rfl
    | cons l rest =>
        have hjoin : joinLines first (l :: rest) = first ++ 10 :: joinLines l rest := by
          unfold joinLines
          simp
        have hlen : (joinLines first (l :: rest)).length = first.length + (joinLines l rest).length + 1 := by
          rw [hjoin, List.length_append, List.length_cons]
          omega
        obtain ⟨htake, hdrop⟩ := @takeWhile_line first (joinLines l rest) hfirst
        obtain ⟨t, ht, hdesc⟩ := @descriptionLines_lines rest (joinLines first (l :: rest)).length l (by omega) (by omega)
          (hrest l (List.mem_cons_self ..)) (fun l hl => hrest l (List.mem_cons_of_mem _ hl))
        have htake' : (joinLines first (l :: rest)).takeWhile (· ≠ 10) = first := by rw [hjoin, htake]
        have hdrop' : ((joinLines first (l :: rest)).dropWhile (· ≠ 10)).drop 1 = joinLines l rest := by
          rw [hjoin, hdrop, List.drop_one, List.tail_cons]
        rw [htake', hdrop', ht, if_neg (by unfold lineSize; omega)]
        refine ⟨_, rfl, fun u => ?_⟩
        rw [show ascii "Description: " ++ first ++ [10] ++ t ++ u = (ascii "Description: " ++ first) ++ 10 :: (t ++ u) by simp,
          linesOf_line hline, hdesc]
        rfl

/-- All lines of a stanza. -/
theorem writeStatusStanza_lines {m : Control} (hm : WasRead m) : ∃ stanza, writeStatusStanza m = some stanza ∧
    linesOf stanza = fieldsBefore.flatMap (fieldLines m) ++ (statusUnpacked :: (fieldsBehind.flatMap (fieldLines m) ++
      (descLines m ++ [[]]))) := by
  obtain ⟨before, hbefore, hlines₁⟩ := statusFields_lines hm fieldsBefore
  obtain ⟨behind, hbehind, hlines₂⟩ := statusFields_lines hm fieldsBehind
  obtain ⟨desc, hdesc, hlines₃⟩ := statusDescription_lines hm
  refine ⟨before ++ statusUnpacked ++ [10] ++ behind ++ desc ++ [10], ?_, ?_⟩
  · unfold writeStatusStanza
    rw [hbefore, hbehind, hdesc]
    rfl
  · have hstatus : 10 ∉ statusUnpacked := by decide
    rw [show before ++ statusUnpacked ++ [10] ++ behind ++ desc ++ [10] =
      before ++ (statusUnpacked ++ 10 :: (behind ++ (desc ++ [10]))) by simp, hlines₁, linesOf_line hstatus, hlines₂, hlines₃]
    rfl

/-! ## Reading a line back -/

/-- A text that the parser takes over as it is: nothing is cut off at its end. -/
def Tidy (v : Text) : Prop := ∀ c, v.getLast? = some c → (isEol c || isTab c) = false

theorem rdropWhile_eq_iff {q : UInt8 → Bool} {v : Text} : v.rdropWhile q = v ↔ ∀ c, v.getLast? = some c → q c = false := by
  rw [List.rdropWhile_eq_self_iff]
  constructor
  · intro h c hc
    obtain ⟨u, rfl⟩ := List.getLast?_eq_some_iff.mp hc
    simpa using h (by simp)
  · intro h hne
    simpa using h _ (List.getLast?_eq_some_getLast hne)

theorem rdropWhile_chomp {q : UInt8 → Bool} (hq : q 13 = true) (v : Text) : (chomp v).rdropWhile q = v.rdropWhile q := by
  unfold chomp
  split
  · rename_i h
    conv => rhs; rw [← List.dropLast_append_getLast? 13 h]
    exact (List.rdropWhile_concat_pos q v.dropLast 13 hq).symm
  · rfl

theorem dropWhile_head {v : Text} (h : ∀ c, v.head? = some c → isTab c = false) : v.dropWhile isTab = v := by
  cases v with
  | nil => rfl
  | cons c v => rw [List.dropWhile_cons_of_neg (by simp [h c rfl])]

/-- A value behind its colon and a blank. -/
theorem copyValue_written {cap : Nat} {v : Text} (hhead : ∀ c, v.head? = some c → isTab c = false) (h0 : 0 ∉ v)
    (hlen : v.length < cap) : copyValue cap (32 :: chomp v) = v.rdropWhile (fun c => isEol c || isTab c) := by
  have hpre := chomp_start v
  have hblank : (32 :: chomp v).dropWhile isTab = chomp v := by
    rw [List.dropWhile_cons_of_pos (by decide)]
    exact dropWhile_head (fun c hc => hhead c (head?_of_start hpre c hc))
  have hle := (List.rdropWhile_prefix (fun c => isEol c || isTab c) v).length_le
  unfold copyValue
  rw [hblank, rdropWhile_chomp (by decide), List.take_of_length_le (by omega)]
  exact cText_self (fun h => h0 ((List.rdropWhile_prefix _ _).subset h))

/-- What a continuation line adds, as the writer makes it. -/
theorem continuation_written {l : Text} (hhead : ∀ c, l.head? = some c → isTab c = false) :
    ((chomp (32 :: l)).dropWhile isTab).rdropWhile isEol = l.rdropWhile isEol := by
  by_cases hl : l = []
  · subst hl
    rfl
  · have hchomp : chomp (32 :: l) = 32 :: chomp l := @chomp_append [32] l hl
    rw [hchomp, List.dropWhile_cons_of_pos (by decide), dropWhile_head, rdropWhile_chomp (by decide)]
    exact fun c hc => hhead c (head?_of_start (chomp_start l) c hc)

/-- A field line of the stanza. -/
theorem controlLine_field (c : Control) (k : ControlKey) (v : Text) :
    controlLine ControlKey.cap c (k.name ++ 58 :: v) = c.put k (copyValue k.cap v) := by
  have hcolon : ∀ b ∈ k.name, decide (b ≠ 58) = true := by
    intro b hb
    simpa using fun heq : b = 58 => (newline_not_mem_name k).2 (heq ▸ hb)
  have hfield : fieldOf (k.name ++ 58 :: v) = some (k.name, v) := by
    unfold fieldOf
    rw [if_pos (by simp), List.takeWhile_append_of_pos hcolon, List.dropWhile_append_of_pos hcolon,
      List.takeWhile_cons_of_neg (by decide), List.dropWhile_cons_of_neg (by decide), List.append_nil, List.drop_one,
      List.tail_cons]
  have hcont : continues (k.name ++ 58 :: v) = false := by
    cases k <;> rfl
  unfold controlLine
  rw [if_neg (by simp), if_neg (by simp [hcont]), hfield]
  dsimp only []
  rw [controlField_eq_some.mpr rfl]

theorem controlLine_status (c : Control) : controlLine ControlKey.cap c statusUnpacked = ⟨c.text, none⟩ := by
  have hne : statusUnpacked ≠ [] := by decide
  have hcont : ¬ continues statusUnpacked = true := by decide
  have hfield : fieldOf statusUnpacked = some (ascii "Status", ascii " install ok unpacked") := by decide
  have hkey : controlField (ascii "Status") = none := by decide
  unfold controlLine
  rw [if_neg hne, if_neg hcont, hfield]
  dsimp only []
  rw [hkey]

/-! ## Fields of one line -/

/-- The first line of a field. -/
theorem chomp_field (k : ControlKey) {v : Text} : chomp (k.name ++ 58 :: 32 :: v) = k.name ++ 58 :: 32 :: chomp v := by
  by_cases hv : v = []
  · subst hv
    rw [@chomp_append k.name [58, 32] (by simp)]
    rfl
  · have := @chomp_append (k.name ++ [58, 32]) v hv
    simpa using this

theorem valueLines_of_line {v : Text} (h : 10 ∉ v) : valueLines v = [v] := by
  obtain ⟨first, rest, hlines, hv, _, _⟩ := valueLines_spec v
  cases rest with
  | nil => rw [hlines, hv, joinLines, List.flatMap_nil, List.append_nil]
  | cons l rest =>
      refine absurd ?_ h
      rw [hv]
      unfold joinLines
      simp

theorem fieldLines_of_line {m : Control} {k : ControlKey} (h : 10 ∉ m.text k) (hne : m.text k ≠ []) :
    fieldLines m k = [k.name ++ 58 :: 32 :: chomp (m.text k)] := by
  unfold fieldLines
  rw [if_neg hne, valueLines_of_line h]
  dsimp only []
  rw [chomp_field]
  rfl

/-- The value of a field after a stanza without folded values was read. -/
theorem fieldLines_read {m : Control} (hm : WasRead m) (ks : List ControlKey) (h10 : ∀ k ∈ ks, 10 ∉ m.text k) :
    ∀ c : Control, ∀ k, ((ks.flatMap (fieldLines m)).foldl (controlLine ControlKey.cap) c).text k =
      if k ∈ ks ∧ m.text k ≠ [] then (m.text k).rdropWhile (fun c => isEol c || isTab c) else c.text k := by
  induction ks with
  | nil =>
      intro c k
      rw [if_neg (by simp)]
      rfl
  | cons k' ks ih =>
      intro c k
      have hread := ih (fun k hk => h10 k (List.mem_cons_of_mem _ hk))
      rw [List.flatMap_cons, List.foldl_append, hread]
      by_cases hempty : m.text k' = []
      · rw [fieldLines, if_pos hempty, List.foldl_nil]
        by_cases hk : k = k'
        · rw [if_neg (by simp [hk, hempty]), if_neg (by simp [hk, hempty])]
        · simp [hk]
      · rw [fieldLines_of_line (h10 k' (List.mem_cons_self ..)) hempty, List.foldl_cons, List.foldl_nil, controlLine_field,
          copyValue_written (fun b hb => ((hm k').1.first b hb).1) (hm k').1.noNul (hm k').2]
        by_cases hk : k = k'
        · subst hk
          rw [show (c.put k ((m.text k).rdropWhile (fun c => isEol c || isTab c))).text k = _ from if_pos rfl]
          simp [hempty]
        · rw [show (c.put k' ((m.text k').rdropWhile (fun c => isEol c || isTab c))).text k = c.text k from if_neg hk]
          simp [hk]

/-! ## The description -/

theorem joinLines_cons (first l : Text) (rest : List Text) : joinLines first (l :: rest) = first ++ 10 :: joinLines l rest := by
  unfold joinLines
  simp

theorem length_joinLines (first : Text) (rest : List Text) : (joinLines first rest).length = first.length + sizeOf rest := by
  unfold joinLines sizeOf
  rw [List.length_append, List.length_flatMap]
  rfl

/-- The lines behind the first do not start with a blank. -/
theorem lineStarts_rest (rest : List Text) : ∀ {first : Text}, LineStarts (joinLines first rest) →
    ∀ l ∈ rest, ∀ c, l.head? = some c → isTab c = false := by
  induction rest with
  | nil => exact fun _ l hl => by cases hl
  | cons l rest ih =>
      intro first h l' hl' c hc
      rw [joinLines_cons] at h
      have hlater : LineStarts (10 :: joinLines l rest) := (List.isChain_append.mp h).2.1
      rcases List.mem_cons.mp hl' with rfl | hl'
      · have hhead : (joinLines l' rest).head? = some c := by
          unfold joinLines
          rw [List.head?_append, hc]
          rfl
        exact (List.isChain_cons.mp hlater).1 c hhead rfl
      · exact ih (List.isChain_cons.mp hlater).2 l' hl' c hc

/-- The value that `append_continuation` makes of the lines. -/
def refold (d : Text) (ls : List Text) : Text :=
  ls.foldl (fun d l => appendContinuation ControlKey.description.cap d (chomp (32 :: l))) d

theorem chomp_blank (l : Text) : ∃ u, chomp (32 :: l) = 32 :: u := by
  by_cases hl : l = []
  · subst hl
    exact ⟨[], rfl⟩
  · exact ⟨chomp l, @chomp_append [32] l hl⟩

theorem continuations_read (ls : List Text) : ∀ {c : Control}, c.current = some .description → ∀ k,
    ((ls.map (fun l => chomp (32 :: l))).foldl (controlLine ControlKey.cap) c).text k =
      if k = .description then refold (c.text .description) ls else c.text k := by
  induction ls with
  | nil =>
      intro c _ k
      split
      · rename_i hk
        rw [hk]
        rfl
      · rfl
  | cons l ls ih =>
      intro c hc k
      obtain ⟨u, hu⟩ := chomp_blank l
      have hline : controlLine ControlKey.cap c (chomp (32 :: l)) =
          c.put .description (appendContinuation ControlKey.description.cap (c.text .description) (chomp (32 :: l))) := by
        rw [hu]
        unfold controlLine
        rw [if_neg (by simp), if_pos (by rfl), hc]
      rw [List.map_cons, List.foldl_cons, hline, ih rfl]
      by_cases hk : k = .description
      · rw [if_pos hk, if_pos hk]
        rfl
      · rw [if_neg hk, if_neg hk]
        exact if_neg hk

theorem descLines_read {m : Control} (hm : WasRead m) {first : Text} {rest : List Text}
    (hlines : valueLines (m.text .description) = first :: rest) (hv : m.text .description = joinLines first rest)
    (c : Control) (k : ControlKey) : ((descLines m).foldl (controlLine ControlKey.cap) c).text k =
      if k = .description ∧ m.text .description ≠ [] then
        refold (first.rdropWhile (fun c => isEol c || isTab c)) (dropEmptyLast rest)
      else c.text k := by
  unfold descLines
  by_cases hempty : m.text .description = []
  · rw [if_pos hempty, if_neg (fun h => h.2 hempty)]
    rfl
  · have hpre : first <+: m.text .description := hv ▸ List.prefix_append _ _
    have hhead : ∀ b, first.head? = some b → isTab b = false := fun b hb =>
      ((hm .description).1.first b (head?_of_start hpre b hb)).1
    have hname : ascii "Description: " ++ first = ControlKey.description.name ++ 58 :: 32 :: first := rfl
    have hfield := controlLine_field c .description (32 :: chomp first)
    rw [copyValue_written hhead (fun h => (hm .description).1.noNul (hpre.subset h))
      (lt_of_le_of_lt hpre.length_le (hm .description).2)] at hfield
    rw [if_neg hempty, hlines]
    dsimp only []
    rw [List.foldl_cons, hname, chomp_field, hfield, continuations_read _ rfl]
    by_cases hk : k = .description
    · rw [if_pos hk, if_pos ⟨hk, hempty⟩]
      rfl
    · rw [if_neg hk, if_neg (fun h => hk h.1)]
      exact if_neg hk

theorem length_refold_le (ls : List Text) : ∀ {d : Text}, (∀ l ∈ ls, ∀ c, l.head? = some c → isTab c = false) →
    (refold d ls).length ≤ d.length + sizeOf (ls.map (fun l => l.rdropWhile isEol)) := by
  induction ls with
  | nil => exact fun _ => le_rfl
  | cons l ls ih =>
      intro d hls
      have hstep : (appendContinuation ControlKey.description.cap d (chomp (32 :: l))).length ≤
          d.length + ((l.rdropWhile isEol).length + 1) := by
        unfold appendContinuation
        rw [continuation_written (hls l (List.mem_cons_self ..))]
        dsimp only []
        refine le_trans (length_cText_le _) ?_
        rw [List.length_append, List.length_take]
        split
        · rw [List.length_append, List.length_singleton]
          omega
        · omega
      have hrest := @ih (appendContinuation ControlKey.description.cap d (chomp (32 :: l)))
        (fun l hl => hls l (List.mem_cons_of_mem _ hl))
      calc (refold d (l :: ls)).length
          ≤ (appendContinuation ControlKey.description.cap d (chomp (32 :: l))).length +
              sizeOf (ls.map (fun l => l.rdropWhile isEol)) := hrest
        _ ≤ d.length + ((l.rdropWhile isEol).length + 1) + sizeOf (ls.map (fun l => l.rdropWhile isEol)) := by omega
        _ = d.length + sizeOf ((l :: ls).map (fun l => l.rdropWhile isEol)) := Nat.add_assoc ..

/-- With room for them, lines that end in no carriage return are put together again. -/
theorem refold_join (ls : List Text) : ∀ {d : Text}, d ≠ [] → 0 ∉ joinLines d ls →
    (joinLines d ls).length < ControlKey.description.cap → (∀ l ∈ ls, ∀ c, l.head? = some c → isTab c = false) →
    (∀ l ∈ ls, l.rdropWhile isEol = l) → refold d ls = joinLines d ls := by
  induction ls with
  | nil => exact fun _ _ _ _ _ => (List.append_nil _).symm
  | cons l ls ih =>
      intro d hd h0 hlen hheads hends
      have hjoin : joinLines d (l :: ls) = joinLines (d ++ 10 :: l) ls := by
        unfold joinLines
        simp
      have hroom : d.length + 1 + l.length < ControlKey.description.cap := by
        rw [hjoin, length_joinLines, List.length_append, List.length_cons] at hlen
        omega
      have hstep : appendContinuation ControlKey.description.cap d (chomp (32 :: l)) = d ++ 10 :: l := by
        have hnul : 0 ∉ d ++ [10] ++ l := by
          intro h
          apply h0
          rw [hjoin]
          exact List.mem_append_left _ (by simpa using h)
        unfold appendContinuation
        rw [continuation_written (hheads l (List.mem_cons_self ..)), hends l (List.mem_cons_self ..)]
        dsimp only []
        rw [if_pos ⟨hd, by omega⟩, List.take_of_length_le, cText_self hnul, List.append_assoc]
        · rfl
        · rw [List.length_append, List.length_singleton]
          omega
      rw [hjoin] at h0 hlen ⊢
      rw [← @ih (d ++ 10 :: l) (by simp) h0 hlen (fun l hl => hheads l (List.mem_cons_of_mem _ hl))
        (fun l hl => hends l (List.mem_cons_of_mem _ hl)), ← hstep]
      rfl

theorem sizeOf_stripped {q : UInt8 → Bool} (ls : List Text) : sizeOf (ls.map (fun l => l.rdropWhile q)) ≤ sizeOf ls ∧
    (sizeOf ls ≤ sizeOf (ls.map (fun l => l.rdropWhile q)) → ∀ l ∈ ls, l.rdropWhile q = l) := by
  induction ls with
  | nil => exact ⟨le_rfl, fun _ l hl => by cases hl⟩
  | cons l ls ih =>
      have hl : (l.rdropWhile q).length ≤ l.length := (List.rdropWhile_prefix q l).length_le
      have hcons : ∀ (l : Text) (ls : List Text), sizeOf (l :: ls) = l.length + 1 + sizeOf ls := fun _ _ => rfl
      rw [List.map_cons, hcons, hcons]
      refine ⟨by omega, fun h l' hl' => ?_⟩
      rcases List.mem_cons.mp hl' with rfl | hl'
      · exact (List.rdropWhile_prefix q l').eq_of_length (by omega)
      · exact ih.2 (by omega) l' hl'

theorem sizeOf_dropEmptyLast (ls : List Text) : sizeOf (dropEmptyLast ls) ≤ sizeOf ls ∧
    (ls.getLast? = some [] → sizeOf (dropEmptyLast ls) < sizeOf ls) := by
  unfold dropEmptyLast
  split
  · rename_i h
    obtain ⟨init, rfl⟩ := List.getLast?_eq_some_iff.mp h
    rw [List.dropLast_concat]
    unfold sizeOf
    rw [List.map_append, List.sum_append]
    simp
  · rename_i h
    exact ⟨le_rfl, fun h' => absurd h' h⟩

theorem rdropWhile_isEol_iff {l : Text} (h10 : 10 ∉ l) : l.rdropWhile isEol = l ↔ l.getLast? ≠ some 13 := by
  rw [rdropWhile_eq_iff]
  constructor
  · intro h hlast
    exact absurd (h 13 hlast) (by decide)
  · intro h c hc
    unfold isEol
    rw [decide_eq_false_iff_not, not_or]
    refine ⟨fun heq => h (heq ▸ hc), fun heq => h10 ?_⟩
    exact heq ▸ List.mem_of_getLast? hc

/-- When the description comes back. -/
theorem refold_eq_iff {first : Text} {rest : List Text} (hv : Unfolded (joinLines first rest)) (hne : joinLines first rest ≠ [])
    (hlen : (joinLines first rest).length < ControlKey.description.cap) (hrest : ∀ l ∈ rest, 10 ∉ l) :
    refold (first.rdropWhile (fun c => isEol c || isTab c)) (dropEmptyLast rest) = joinLines first rest ↔
      Tidy first ∧ (∀ l ∈ rest, l.getLast? ≠ some 13) ∧ rest.getLast? ≠ some [] := by
  have hheads := lineStarts_rest rest hv.lines
  constructor
  · intro h
    have hkept : ∀ l ∈ dropEmptyLast rest, l ∈ rest := by
      intro l hl
      unfold dropEmptyLast at hl
      split at hl
      · exact (List.dropLast_prefix rest).subset hl
      · exact hl
    -- nothing that is cut off is made good elsewhere
    have hbound := @length_refold_le (dropEmptyLast rest) (first.rdropWhile (fun c => isEol c || isTab c))
      (fun l hl => hheads l (hkept l hl))
    rw [h, length_joinLines] at hbound
    have hfirst := (List.rdropWhile_prefix (fun c => isEol c || isTab c) first).length_le
    obtain ⟨hstrip, hall⟩ := @sizeOf_stripped isEol (dropEmptyLast rest)
    obtain ⟨hdrop, hlast⟩ := sizeOf_dropEmptyLast rest
    have hnolast : rest.getLast? ≠ some [] := by
      intro hl
      have := hlast hl
      omega
    have hdropped : dropEmptyLast rest = rest := if_neg hnolast
    rw [hdropped] at hall hbound hstrip
    refine ⟨?_, fun l hl => ?_, hnolast⟩
    · exact rdropWhile_eq_iff.mp ((List.rdropWhile_prefix _ _).eq_of_length (by omega))
    · exact (rdropWhile_isEol_iff (hrest l hl)).mp (hall (by omega) l hl)
  · rintro ⟨htidy, hlines, hlast⟩
    have hdropped : dropEmptyLast rest = rest := if_neg hlast
    have hfirst : first ≠ [] := by
      rintro rfl
      cases rest with
      | nil => exact hne rfl
      | cons l rest => exact (hv.first 10 rfl).2 rfl
    rw [hdropped, rdropWhile_eq_iff.mpr htidy]
    exact refold_join rest hfirst hv.noNul hlen hheads (fun l hl => (rdropWhile_isEol_iff (hrest l hl)).mpr (hlines l hl))

/-! ## Fields of several lines -/

/-- No text has a newline. -/
def NoNewline (c : Control) : Prop := ∀ k, 10 ∉ c.text k

theorem newline_not_mem_copyValue (cap : Nat) {v : Text} (h : 10 ∉ v) : 10 ∉ copyValue cap v := by
  intro h10
  have hpre : copyValue cap v <+: v.dropWhile isTab :=
    (List.takeWhile_prefix _).trans ((List.take_prefix _ _).trans (List.rdropWhile_prefix _ _))
  exact h ((List.dropWhile_suffix _).subset (hpre.subset h10))

theorem noNewline_controlLine {c : Control} {line : Text} (hc : NoNewline c) (hcont : ¬ continues line = true)
    (h10 : 10 ∉ line) : NoNewline (controlLine ControlKey.cap c line) := by
  unfold controlLine
  split
  · exact hc
  · cases hf : fieldOf line with
    | none => exact hc
    | some f =>
        dsimp only []
        cases controlField f.1 with
        | none => exact hc
        | some k =>
            intro k'
            dsimp only [Control.put]
            split
            · exact newline_not_mem_copyValue _ (fun h => h10 (fieldOf_value hf 10 h))
            · exact hc k'

theorem noNewline_foldl (lines : List Text) : ∀ {c : Control}, NoNewline c →
    (∀ l ∈ lines, ¬ continues l = true ∧ 10 ∉ l) → NoNewline (lines.foldl (controlLine ControlKey.cap) c) := by
  induction lines with
  | nil => exact fun hc _ => hc
  | cons l lines ih =>
      intro c hc h
      obtain ⟨hcont, h10⟩ := h l (List.mem_cons_self ..)
      exact ih (noNewline_controlLine hc hcont h10) (fun l hl => h l (List.mem_cons_of_mem _ hl))

theorem not_continues {l : Text} (h : ∀ c, l.head? = some c → isTab c = false) : ¬ continues l = true := by
  unfold continues
  rw [decide_eq_true_iff, not_or]
  constructor
  · intro h32
    exact absurd (h 32 h32) (by decide)
  · intro h9
    exact absurd (h 9 h9) (by decide)

/-- The lines of a field, folded or not, continue nothing. -/
theorem fieldLines_plain {m : Control} (hm : WasRead m) (k : ControlKey) :
    ∀ l ∈ fieldLines m k, ¬ continues l = true ∧ 10 ∉ l := by
  obtain ⟨first, rest, hlines, hv, hfirst, hrest⟩ := valueLines_spec (m.text k)
  unfold fieldLines
  split
  · exact fun l hl => by cases hl
  · rw [hlines]
    dsimp only []
    intro l hl
    rcases List.mem_cons.mp hl with rfl | hl
    · rw [chomp_field]
      constructor
      · cases k <;> exact fun h => absurd h (by rintro ⟨⟩)
      · rw [List.mem_append, List.mem_cons, List.mem_cons]
        rintro (h | h | h | h)
        · exact (newline_not_mem_name k).1 h
        · exact absurd h (by decide)
        · exact absurd h (by decide)
        · exact hfirst ((chomp_start first).subset h)
    · obtain ⟨l', hl', rfl⟩ := List.mem_map.mp hl
      have hstarts := lineStarts_rest rest (hv ▸ (hm k).1.lines) l' hl'
      constructor
      · exact not_continues (fun c hc => hstarts c (head?_of_start (chomp_start l') c hc))
      · exact fun h => hrest l' hl' ((chomp_start l').subset h)

/-! ## Reading a stanza back -/

/-- The lines before the description. -/
def plainLines (m : Control) : List Text :=
  fieldsBefore.flatMap (fieldLines m) ++ (statusUnpacked :: fieldsBehind.flatMap (fieldLines m))

theorem mem_fields {k : ControlKey} (hk : k ≠ .description) : k ∈ fieldsBefore ∨ k ∈ fieldsBehind := by
  cases k <;> first | decide | exact absurd rfl hk

theorem description_not_mem : ControlKey.description ∉ fieldsBefore ∧ ControlKey.description ∉ fieldsBehind := by decide

theorem plainLines_noNewline {m : Control} (hm : WasRead m) :
    NoNewline ((plainLines m).foldl (controlLine ControlKey.cap) .empty) := by
  refine noNewline_foldl _ (fun k h => by cases h) (fun l hl => ?_)
  have hfields : ∀ ks : List ControlKey, l ∈ ks.flatMap (fieldLines m) → ¬ continues l = true ∧ 10 ∉ l := by
    intro ks h
    obtain ⟨k, _, hk⟩ := List.mem_flatMap.mp h
    exact fieldLines_plain hm k l hk
  rcases List.mem_append.mp hl with hl | hl
  · exact hfields _ hl
  · rcases List.mem_cons.mp hl with rfl | hl
    · decide
    · exact hfields _ hl

theorem plainLines_read {m : Control} (hm : WasRead m) (h10 : ∀ k, k ≠ .description → 10 ∉ m.text k) (k : ControlKey) :
    ((plainLines m).foldl (controlLine ControlKey.cap) .empty).text k =
      if k = .description then [] else (m.text k).rdropWhile (fun c => isEol c || isTab c) := by
  have hbefore : ∀ k ∈ fieldsBefore, 10 ∉ m.text k := by
    intro k hk
    apply h10
    rintro rfl
    exact description_not_mem.1 hk
  have hbehind : ∀ k ∈ fieldsBehind, 10 ∉ m.text k := by
    intro k hk
    apply h10
    rintro rfl
    exact description_not_mem.2 hk
  unfold plainLines
  rw [List.foldl_append, List.foldl_cons, controlLine_status, fieldLines_read hm _ hbehind]
  dsimp only []
  rw [fieldLines_read hm _ hbefore]
  by_cases hk : k = .description
  · subst hk
    rw [if_neg (fun h => description_not_mem.2 h.1), if_neg (fun h => description_not_mem.1 h.1), if_pos rfl]
    rfl
  · rw [if_neg hk]
    by_cases hempty : m.text k = []
    · rw [if_neg (fun h => h.2 hempty), if_neg (fun h => h.2 hempty), hempty]
      rfl
    · rcases mem_fields hk with hmem | hmem
      · rw [if_pos (show k ∈ fieldsBefore ∧ m.text k ≠ [] from ⟨hmem, hempty⟩), ite_self]
      · rw [if_pos ⟨hmem, hempty⟩]

/-- What comes of each text. -/
theorem stanza_read {m : Control} (hm : WasRead m) {stanza : Text}
    (hstanza : linesOf stanza = fieldsBefore.flatMap (fieldLines m) ++ (statusUnpacked :: (fieldsBehind.flatMap (fieldLines m) ++
      (descLines m ++ [[]])))) {first : Text} {rest : List Text} (hlines : valueLines (m.text .description) = first :: rest)
    (hv : m.text .description = joinLines first rest) (k : ControlKey) : (debControlParse stanza).2.text k =
      if k = .description ∧ m.text .description ≠ [] then
        refold (first.rdropWhile (fun c => isEol c || isTab c)) (dropEmptyLast rest)
      else ((plainLines m).foldl (controlLine ControlKey.cap) .empty).text k := by
  have hall : linesOf stanza = plainLines m ++ descLines m ++ [[]] := by
    rw [hstanza]
    unfold plainLines
    simp
  have hlast : ∀ c : Control, (controlLine ControlKey.cap c []).text = c.text := fun c => rfl
  unfold debControlParse
  dsimp only []
  rw [hall, List.foldl_append, List.foldl_append, List.foldl_cons, List.foldl_nil, hlast]
  exact descLines_read hm hlines hv _ k

/-- The values that a stanza keeps: apart from the description none has several lines, the description
does not end in an empty line, and no line ends in white space that the parser cuts off. -/
structure Foldable (m : Control) : Prop where
  single : ∀ k, k ≠ .description → 10 ∉ m.text k ∧ Tidy (m.text k)
  descFirst : ∀ l, (valueLines (m.text .description)).head? = some l → Tidy l
  descLines : ∀ l ∈ (valueLines (m.text .description)).tail, l.getLast? ≠ some 13
  descLast : (valueLines (m.text .description)).tail.getLast? ≠ some []

theorem roundTrip_iff {m : Control} (hm : WasRead m) {stanza : Text}
    (hstanza : linesOf stanza = fieldsBefore.flatMap (fieldLines m) ++ (statusUnpacked :: (fieldsBehind.flatMap (fieldLines m) ++
      (descLines m ++ [[]])))) : (debControlParse stanza).2.text = m.text ↔ Foldable m := by
  obtain ⟨first, rest, hlines, hv, _, hrest⟩ := valueLines_spec (m.text .description)
  have hread := stanza_read hm hstanza hlines hv
  have hdesc := (hm .description).1
  have hlen := (hm .description).2
  rw [hv] at hdesc hlen
  constructor
  · intro heq
    -- a newline in another field would have made two lines of it
    have h10 : ∀ k, k ≠ .description → 10 ∉ m.text k := by
      intro k hk
      rw [← heq, hread k, if_neg (fun h => hk h.1)]
      exact plainLines_noNewline hm k
    have hparts : Tidy first ∧ (∀ l ∈ rest, l.getLast? ≠ some 13) ∧ rest.getLast? ≠ some [] := by
      by_cases hempty : m.text .description = []
      · obtain ⟨rfl, rfl⟩ := joinLines_eq_nil.mp (hv.symm.trans hempty)
        exact ⟨(fun c hc => by cases hc), (fun l hl => by cases hl), (fun h => by cases h)⟩
      · have hk := hread .description
        rw [heq, if_pos ⟨rfl, hempty⟩] at hk
        exact (refold_eq_iff hdesc (hv ▸ hempty) hlen hrest).mp (hk.symm.trans hv)
    refine ⟨fun k hk => ⟨h10 k hk, ?_⟩, ?_, ?_, ?_⟩
    · have hk' := hread k
      rw [heq, if_neg (fun h => hk h.1), plainLines_read hm h10, if_neg hk] at hk'
      exact rdropWhile_eq_iff.mp hk'.symm
    · intro l hl
      rw [hlines] at hl
      cases hl
      exact hparts.1
    · rw [hlines]
      exact hparts.2.1
    · rw [hlines]
      exact hparts.2.2
  · intro h
    have h10 : ∀ k, k ≠ .description → 10 ∉ m.text k := fun k hk => (h.single k hk).1
    funext k
    rw [hread k]
    by_cases hk : k = .description
    · subst hk
      by_cases hempty : m.text .description = []
      · rw [if_neg (fun h => h.2 hempty), plainLines_read hm h10, if_pos rfl, hempty]
      · rw [if_pos ⟨rfl, hempty⟩, hv]
        obtain ⟨_, hfirst, hlines', hlast⟩ := h
        rw [hlines] at hfirst hlines' hlast
        exact (refold_eq_iff hdesc (hv ▸ hempty) hlen hrest).mpr ⟨hfirst first rfl, hlines', hlast⟩
    · rw [if_neg (fun h => hk h.1), plainLines_read hm h10, if_neg hk]
      exact rdropWhile_eq_iff.mpr (h.single k hk).2

/-- When the status file gives back what was read. -/
theorem stanza_roundTrip_iff (text : Text) : ∃ stanza, writeStatusStanza (debControlParse text).2 = some stanza ∧
    ((debControlParse stanza).2.text = (debControlParse text).2.text ↔ Foldable (debControlParse text).2) := by
  have hm := wasRead_debControlParse text
  obtain ⟨stanza, hstanza, hlines⟩ := writeStatusStanza_lines hm
  exact ⟨stanza, hstanza, roundTrip_iff hm hlines⟩

/-- A folded dependency: of `b,` and `c` only the first is in the status file. -/
def foldedControl : Text := ascii "Package: a\nVersion: 1\nDepends: b,\n c\n"

theorem dependency_lost : (debControlParse foldedControl).1 = 0 ∧
    (debControlParse foldedControl).2.text .depends = ascii "b,\nc" ∧
    (writeStatusStanza (debControlParse foldedControl).2).map (fun s => (debControlParse s).2.text .depends) =
      some (ascii "b,") := by
  decide +kernel

end Guppy.Pkg
