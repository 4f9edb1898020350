import Mathlib.Data.List.TakeWhile
import Mathlib.Tactic

set_option autoImplicit false

/-! # Words of a line

A line is cut into words at separators; a word that starts with a quote goes on to the next quote of the same kind. Apart
from separators and quotes, every character of the line is in exactly one of its words (`count_words`). A line of plain
words with one separator between them has these words (`words_intercalate`), and no other line of that length has words
of the same lengths (`plain_of_weight`).
-/

namespace Guppy.Words

variable {α : Type} [DecidableEq α] (isSep isQuote : α → Bool)

/-- The word at the start of a text that does not start with a separator, and the text behind it. -/
def word : List α → List α × List α
  | [] => ([], [])
  | c :: t =>
      if isQuote c then (t.takeWhile fun d => decide (d ≠ c), (t.dropWhile fun d => decide (d ≠ c)).drop 1)
      else ((c :: t).takeWhile fun d => !isSep d, ((c :: t).dropWhile fun d => !isSep d).drop 1)

def wordsFrom : Nat → List α → List (List α)
  | 0, _ => []
  | fuel + 1, p =>
      match p.dropWhile isSep with
      | [] => []
      | c :: t => (word isSep isQuote (c :: t)).1 :: wordsFrom fuel (word isSep isQuote (c :: t)).2

/-- The words of a line. -/
def words (p : List α) : List (List α) := wordsFrom isSep isQuote p.length p

variable {isSep isQuote}

/-! ## One word -/

theorem length_word (c : α) (t : List α) : (word isSep isQuote (c :: t)).2.length ≤ t.length := by
  have hdrop : ∀ f : α → Bool, ∀ l : List α, (l.dropWhile f).length ≤ l.length := fun f l => List.length_dropWhile_le f l
  rw [word]
  split
  · rw [List.length_drop]
    exact (Nat.sub_le _ _).trans (hdrop _ t)
  · have := hdrop (fun d => !isSep d) (c :: t)
    rw [List.length_cons] at this
    rw [List.length_drop]
    omega

theorem wordsFrom_stable (n : Nat) : ∀ {m : Nat} {p : List α}, p.length ≤ n → p.length ≤ m →
    wordsFrom isSep isQuote n p = wordsFrom isSep isQuote m p := by
  induction n with
  | zero =>
      intro m p hn _
      rw [List.length_eq_zero_iff.mp (Nat.le_zero.mp hn)]
      cases m with
      | zero => rfl
      | succ m => rfl
  | succ n ih =>
      intro m p hn hm
      have hle := List.length_dropWhile_le isSep p
      cases m with
      | zero =>
          rw [List.length_eq_zero_iff.mp (Nat.le_zero.mp hm)]
          rfl
      | succ m =>
          rw [wordsFrom, wordsFrom]
          cases hp : p.dropWhile isSep with
          | nil => rfl
          | cons c t =>
              rw [hp, List.length_cons] at hle
              have hword := @length_word _ _ isSep isQuote c t
              exact congrArg (List.cons _) (ih (by omega) (by omega))

theorem words_nil : words isSep isQuote [] = [] := rfl

/-- The first word and the words behind it. -/
theorem words_cons {c : α} (h : isSep c = false) (t : List α) : words isSep isQuote (c :: t) =
    (word isSep isQuote (c :: t)).1 :: words isSep isQuote (word isSep isQuote (c :: t)).2 := by
  have hdrop : (c :: t).dropWhile isSep = c :: t := List.dropWhile_cons_of_neg (by simp [h])
  rw [words, List.length_cons, wordsFrom, hdrop]
  exact congrArg (List.cons _) (wordsFrom_stable _ (length_word c t) le_rfl)

theorem words_sep {c : α} (h : isSep c = true) (t : List α) : words isSep isQuote (c :: t) = words isSep isQuote t := by
  have hdrop : (c :: t).dropWhile isSep = t.dropWhile isSep := List.dropWhile_cons_of_pos h
  have hlong : words isSep isQuote t = wordsFrom isSep isQuote (t.length + 1) t := wordsFrom_stable _ le_rfl (Nat.le_succ _)
  rw [hlong, words, List.length_cons, wordsFrom, wordsFrom, hdrop]

theorem words_seps_append {b : List α} (h : ∀ c ∈ b, isSep c = true) (t : List α) :
    words isSep isQuote (b ++ t) = words isSep isQuote t := by
  induction b with
  | nil => rfl
  | cons c b ih =>
      obtain ⟨hc, hb⟩ := List.forall_mem_cons.mp h
      rw [List.cons_append, words_sep hc, ih hb]

theorem words_eq_nil_iff {p : List α} : words isSep isQuote p = [] ↔ ∀ c ∈ p, isSep c = true := by
  induction p with
  | nil => exact iff_of_true rfl fun c hc => absurd hc List.not_mem_nil
  | cons c t ih =>
      rw [List.forall_mem_cons]
      cases hc : isSep c with
      | true => rw [words_sep hc, ih, and_iff_right rfl]
      | false =>
          rw [words_cons hc]
          exact iff_of_false (List.cons_ne_nil _ _) fun h => Bool.false_ne_true h.1

/-- An induction over the words of a line. -/
theorem words_induction {motive : List α → Prop} (nil : motive [])
    (sep : ∀ c t, isSep c = true → motive t → motive (c :: t))
    (word : ∀ c t, isSep c = false → motive (word isSep isQuote (c :: t)).2 → motive (c :: t)) (p : List α) : motive p := by
  induction hn : p.length using Nat.strong_induction_on generalizing p with
  | _ n ih =>
      cases p with
      | nil => exact nil
      | cons c t =>
          rw [List.length_cons] at hn
          cases hc : isSep c with
          | true => exact sep c t hc (ih t.length (by omega) t rfl)
          | false =>
              have hlen := @length_word _ _ isSep isQuote c t
              exact word c t hc (ih _ (by omega) _ rfl)

/-! ## What the words hold -/

omit [DecidableEq α] in
/-- A search cuts a text at the character that it stops at. -/
theorem takeWhile_drop_cases (f : α → Bool) (t : List α) :
    (t = t.takeWhile f ∧ (t.dropWhile f).drop 1 = []) ∨
      ∃ d, f d = false ∧ t = t.takeWhile f ++ d :: (t.dropWhile f).drop 1 := by
  have hcut := List.takeWhile_append_dropWhile (p := f) (l := t)
  cases hrest : t.dropWhile f with
  | nil =>
      rw [hrest, List.append_nil] at hcut
      exact Or.inl ⟨hcut.symm, rfl⟩
  | cons d r =>
      refine Or.inr ⟨d, ?_, ?_⟩
      · have hhead := List.head?_dropWhile_not f t
        rw [hrest] at hhead
        simpa using hhead
      · rw [hrest] at hcut
        exact hcut.symm

/-- What a word takes: a plain word up to the end or a separator, or a quoted one up to the end or its quote. -/
inductive Cut (isSep isQuote : α → Bool) : List α → List α → List α → Prop
  | last {w : List α} (hne : w ≠ []) (hw : ∀ d ∈ w, isSep d = false) (hq : ∀ d ∈ w.head?, isQuote d = false) :
      Cut isSep isQuote w w []
  | plain {w r : List α} {d : α} (hne : w ≠ []) (hw : ∀ d ∈ w, isSep d = false) (hq : ∀ d ∈ w.head?, isQuote d = false)
      (hd : isSep d = true) : Cut isSep isQuote (w ++ d :: r) w r
  | unclosed {w : List α} {q : α} (hq : isQuote q = true) : Cut isSep isQuote (q :: w) w []
  | quoted {w r : List α} {q : α} (hq : isQuote q = true) : Cut isSep isQuote (q :: (w ++ q :: r)) w r

theorem word_cut {c : α} (h : isSep c = false) (t : List α) :
    Cut isSep isQuote (c :: t) (word isSep isQuote (c :: t)).1 (word isSep isQuote (c :: t)).2 := by
  rw [word]
  cases hq : isQuote c with
  | true =>
      rw [if_pos rfl]
      rcases takeWhile_drop_cases (fun d => decide (d ≠ c)) t with ⟨ht, hr⟩ | ⟨d, hd, ht⟩
      · rw [hr]
        conv => arg 3; rw [ht]
        exact .unclosed hq
      · have hdc : d = c := not_not.mp (of_decide_eq_false hd)
        rw [hdc] at ht
        conv => arg 3; rw [ht]
        exact .quoted hq
  | false =>
      rw [if_neg Bool.false_ne_true]
      have hne : (c :: t).takeWhile (fun d => !isSep d) ≠ [] := by
        rw [List.takeWhile_cons_of_pos (by simp [h])]
        exact List.cons_ne_nil _ _
      have hw : ∀ d ∈ (c :: t).takeWhile (fun d => !isSep d), isSep d = false := fun d hd => by
        simpa using List.mem_takeWhile_imp hd
      have hhead : ∀ d ∈ ((c :: t).takeWhile fun d => !isSep d).head?, isQuote d = false := by
        rw [List.takeWhile_cons_of_pos (by simp [h])]
        exact fun d hd => Option.some.inj hd ▸ hq
      rcases takeWhile_drop_cases (fun d => !isSep d) (c :: t) with ⟨ht, hr⟩ | ⟨d, hd, ht⟩
      · rw [hr]
        conv => arg 3; rw [ht]
        exact .last hne hw hhead
      · conv => arg 3; rw [ht]
        exact .plain hne hw hhead (by simpa using hd)

theorem Cut.count {p w r : List α} (h : Cut isSep isQuote p w r) {a : α} (hs : isSep a = false) (hq : isQuote a = false) :
    p.count a = w.count a + r.count a := by
  have hother : ∀ {d : α}, (isSep d = true ∨ isQuote d = true) → d ≠ a := fun hd he => by
    rw [he, hs, hq] at hd
    simp at hd
  cases h with
  | last => simp
  | plain _ _ _ hd => simp [hother (Or.inl hd)]
  | unclosed hq => simp [hother (Or.inr hq)]
  | quoted hq => simp [hother (Or.inr hq)]

/-- A character that is neither a separator nor a quote is as often in the words as in the line. -/
theorem count_words {a : α} (hs : isSep a = false) (hq : isQuote a = false) (p : List α) :
    (words isSep isQuote p).flatten.count a = p.count a := by
  induction p using @words_induction _ _ isSep isQuote with
  | nil => rfl
  | sep c t hc ih =>
      have hne : c ≠ a := fun he => by rw [he, hs] at hc; cases hc
      rw [words_sep hc, ih, List.count_cons_of_ne hne]
  | word c t hc ih => rw [words_cons hc, List.flatten_cons, List.count_append, ih, (word_cut hc t).count hs hq]

/-! ## Plain words -/

/-- A word that is read as it is written. -/
structure PlainWord (isSep isQuote : α → Bool) (w : List α) : Prop where
  ne_nil : w ≠ []
  seps : ∀ d ∈ w, isSep d = false
  quote : ∀ d ∈ w.head?, isQuote d = false

/-- The length of a line of these words, with the end counted as a separator. -/
def weight (ws : List (List α)) : Nat := (ws.map fun w => w.length + 1).sum

omit [DecidableEq α] in
theorem weight_cons (w : List α) (ws : List (List α)) : weight (w :: ws) = w.length + 1 + weight ws := List.sum_cons

/-- The first words of a line are not longer than the line; when they are as long, they are plain. -/
theorem plain_of_weight (p : List α) : ∀ k, weight ((words isSep isQuote p).take k) ≤ p.length + 1 ∧
    (weight ((words isSep isQuote p).take k) = p.length + 1 →
      ∀ w ∈ (words isSep isQuote p).take k, PlainWord isSep isQuote w) := by
  induction p using @words_induction _ _ isSep isQuote with
  | nil =>
      intro k
      rw [words_nil, List.take_nil]
      exact ⟨Nat.zero_le _, fun _ w hw => absurd hw List.not_mem_nil⟩
  | sep c t hc ih =>
      intro k
      obtain ⟨hle, -⟩ := ih k
      rw [words_sep hc, List.length_cons]
      exact ⟨by omega, fun h => absurd h (by omega)⟩
  | word c t hc ih =>
      intro k
      rw [words_cons hc]
      have hcut := @word_cut _ _ isSep isQuote c hc t
      revert hcut ih
      generalize (word isSep isQuote (c :: t)).1 = w
      generalize (word isSep isQuote (c :: t)).2 = r
      generalize c :: t = p
      intro ih hcut
      cases k with
      | zero => exact ⟨Nat.zero_le _, fun _ w hw => absurd hw List.not_mem_nil⟩
      | succ k =>
          obtain ⟨hle, hall⟩ := ih k
          rw [List.take_succ_cons, weight_cons]
          cases hcut with
          | last hne hw hq =>
              rw [words_nil, List.take_nil]
              exact ⟨Nat.le_refl _, fun _ v hv => by
                rw [List.mem_singleton.mp hv]
                exact ⟨hne, hw, hq⟩⟩
          | plain hne hw hq hd =>
              rw [List.length_append, List.length_cons]
              refine ⟨by omega, fun h => List.forall_mem_cons.mpr ⟨⟨hne, hw, hq⟩, hall (by omega)⟩⟩
          | unclosed =>
              rw [words_nil, List.take_nil, List.length_cons]
              have hzero : weight ([] : List (List α)) = 0 := rfl
              exact ⟨by omega, fun h => absurd h (by omega)⟩
          | quoted =>
              rw [List.length_cons, List.length_append, List.length_cons]
              exact ⟨by omega, fun h => absurd h (by omega)⟩

theorem word_plain {w : List α} (hw : PlainWord isSep isQuote w) :
    word isSep isQuote w = (w, []) := by
  cases w with
  | nil => exact absurd rfl hw.ne_nil
  | cons c t =>
      have hall : ∀ d ∈ c :: t, (!isSep d) = true := fun d hd => by simp [hw.seps d hd]
      rw [word, if_neg (by simp [hw.quote c rfl]), List.takeWhile_eq_self_iff.mpr hall, List.dropWhile_eq_nil_iff.mpr hall]
      rfl

theorem word_plain_append {w : List α} (hw : PlainWord isSep isQuote w) {d : α} (hd : isSep d = true) (r : List α) :
    word isSep isQuote (w ++ d :: r) = (w, r) := by
  cases w with
  | nil => exact absurd rfl hw.ne_nil
  | cons c t =>
      have hall : ∀ d ∈ c :: t, (!isSep d) = true := fun d hd => by simp [hw.seps d hd]
      rw [List.cons_append, word, if_neg (by simp [hw.quote c rfl]), ← List.cons_append,
        List.takeWhile_append_of_pos hall, List.dropWhile_append_of_pos hall]
      simp [hd]

theorem words_plain {w : List α} (hw : PlainWord isSep isQuote w) : words isSep isQuote w = [w] := by
  cases w with
  | nil => exact absurd rfl hw.ne_nil
  | cons c t => rw [words_cons (hw.seps c List.mem_cons_self), word_plain hw, words_nil]

/-- Plain words with one separator between them. -/
theorem words_intercalate {d : α} (hd : isSep d = true) {ws : List (List α)} (h : ∀ w ∈ ws, PlainWord isSep isQuote w) :
    words isSep isQuote ([d].intercalate ws) = ws := by
  induction ws with
  | nil => rfl
  | cons w ws ih =>
      obtain ⟨hw, hws⟩ := List.forall_mem_cons.mp h
      cases ws with
      | nil =>
          rw [List.intercalate_singleton]
          exact words_plain hw
      | cons v ws =>
          have hline : [d].intercalate (w :: v :: ws) = w ++ d :: [d].intercalate (v :: ws) := by
            rw [List.intercalate_cons_cons, List.append_assoc, List.singleton_append]
          have hword := word_plain_append hw hd ([d].intercalate (v :: ws))
          rw [hline]
          cases w with
          | nil => exact absurd rfl hw.ne_nil
          | cons c t =>
              rw [List.cons_append] at hword ⊢
              rw [words_cons (hw.seps c List.mem_cons_self), hword, ih hws]

end Guppy.Words
