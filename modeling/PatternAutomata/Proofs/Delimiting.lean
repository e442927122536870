import Mathlib.Data.List.Basic
import PatternAutomata.Text.Quoted

/-!
# Texts that tell where they end

A kind of text is self-delimiting when it can be read off the front of any longer text in one way
only. Quoted text is so, whichever characters are shown by number: behind the opening delimiter
every character is one plain character or a backslash with a letter or a number in braces, and none
of these begins like the closing delimiter. A number is not, but it ends before the first character
that is no digit, and a list of such items ends before the first text that does not begin like an
item.
-/

namespace PatternAutomata.Text

/-- The front of a text cannot be read as two values, nor as one value in two ways. -/
def SelfDelimiting {α : Type} (text : α → List Char) : Prop :=
  ∀ a b r s, text a ++ r = text b ++ s → a = b ∧ r = s

theorem append_inj_of_stop {p : Char → Bool} {u v r s : List Char} (hu : ∀ c ∈ u, p c = true)
    (hv : ∀ c ∈ v, p c = true) (hr : ∀ c ∈ r.head?, p c = false)
    (hs : ∀ c ∈ s.head?, p c = false) (h : u ++ r = v ++ s) : u = v ∧ r = s := by
  induction u generalizing v with
  | nil =>
    cases v with
    | nil => exact ⟨rfl, h⟩
    | cons d v =>
      have hd : p d = false := hr d (by rw [List.nil_append] at h; simp [h])
      rw [hv d (by simp)] at hd
      cases hd
  | cons c u ih =>
    cases v with
    | nil =>
      have hc : p c = false := hs c (by rw [List.nil_append] at h; simp [← h])
      rw [hu c (by simp)] at hc
      cases hc
    | cons d v =>
      obtain ⟨rfl, htail⟩ := List.cons.inj h
      obtain ⟨rfl, rfl⟩ := ih (fun x hx => hu x (by simp [hx])) (fun x hx => hv x (by simp [hx]))
        htail
      exact ⟨rfl, rfl⟩

theorem digitChar_inj : ∀ i < 16, ∀ j < 16, Nat.digitChar i = Nat.digitChar j → i = j := by
  decide

theorem toDigits_injective {b : Nat} (hb : 1 < b) (hb' : b ≤ 16) {n k : Nat}
    (h : Nat.toDigits b n = Nat.toDigits b k) : n = k := by
  induction n using Nat.strongRecOn generalizing k with
  | ind n ih =>
    rw [Nat.toDigits_eq_if hb, Nat.toDigits_eq_if hb (n := k)] at h
    by_cases hn : n < b
    · by_cases hk : k < b
      · rw [if_pos hn, if_pos hk] at h
        exact digitChar_inj n (by omega) k (by omega) (List.cons.inj h).1
      · rw [if_pos hn, if_neg hk] at h
        have hlength := congrArg List.length h
        simp at hlength
    · by_cases hk : k < b
      · rw [if_neg hn, if_pos hk] at h
        have hlength := congrArg List.length h
        simp at hlength
      · rw [if_neg hn, if_neg hk] at h
        obtain ⟨hinit, hlast⟩ := List.append_inj' h rfl
        have hdiv : n / b = k / b := ih (n / b) (Nat.div_lt_self (by omega) hb) hinit
        have hmod : n % b = k % b :=
          digitChar_inj _ (Nat.lt_of_lt_of_le (Nat.mod_lt n (by omega)) hb') _
            (Nat.lt_of_lt_of_le (Nat.mod_lt k (by omega)) hb') (List.cons.inj hlast).1
        rw [← Nat.div_add_mod n b, ← Nat.div_add_mod k b, hdiv, hmod]

theorem exists_digitChar_of_mem {b : Nat} (hb : 1 < b) {n : Nat} {c : Char}
    (h : c ∈ Nat.toDigits b n) : ∃ d < b, c = Nat.digitChar d := by
  induction n using Nat.strongRecOn with
  | ind n ih =>
    rw [Nat.toDigits_eq_if hb] at h
    by_cases hn : n < b
    · rw [if_pos hn] at h
      exact ⟨n, hn, List.mem_singleton.1 h⟩
    · rw [if_neg hn, List.mem_append, List.mem_singleton] at h
      rcases h with h | h
      · exact ih (n / b) (Nat.div_lt_self (by omega) hb) h
      · exact ⟨n % b, Nat.mod_lt n (by omega), h⟩

def number (n : Nat) : List Char := (toString n).toList

def NoDigit (rest : List Char) : Prop := ∀ c ∈ rest.head?, c.isDigit = false

theorem number_eq (n : Nat) : number n = Nat.toDigits 10 n := by
  simp [number]

theorem isDigit_of_mem_number {n : Nat} {c : Char} (h : c ∈ number n) : c.isDigit = true := by
  rw [number_eq] at h
  exact Nat.isDigit_of_mem_toDigits (by decide) (by decide) h

theorem number_ne_nil (n : Nat) : number n ≠ [] := by
  rw [number_eq]
  exact Nat.toDigits_ne_nil

theorem number_append_inj {n k : Nat} {r s : List Char} (hr : NoDigit r) (hs : NoDigit s)
    (h : number n ++ r = number k ++ s) : n = k ∧ r = s := by
  obtain ⟨hnumber, hrest⟩ := append_inj_of_stop (fun c hc => isDigit_of_mem_number hc)
    (fun c hc => isDigit_of_mem_number hc) hr hs h
  rw [number_eq, number_eq] at hnumber
  exact ⟨toDigits_injective (by decide) (by decide) hnumber, hrest⟩

def delimiters : List Char := ['\x27', '\x22']

def letters (delimiter : Char) : List (Char × Char) :=
  [('\x00', '0'), ('\t', 't'), ('\n', 'n'), ('\r', 'r'), ('\\', '\\'), (delimiter, delimiter)]

inductive Escaped (delimiter : Char) : Char → List Char → Prop
  | letter {c l : Char} : (c, l) ∈ letters delimiter → Escaped delimiter c ['\\', l]
  | number (c : Char) : Escaped delimiter c (byNumber c)
  | plain {c : Char} : c ≠ '\\' → c ≠ delimiter → ¬ isUnprintable c → Escaped delimiter c [c]

theorem escaped_escape (delimiter c : Char) : Escaped delimiter c (escape delimiter c) := by
  unfold escape
  split
  · exact .letter (by simp [letters])
  · exact .letter (by simp [letters])
  · exact .letter (by simp [letters])
  · exact .letter (by simp [letters])
  · exact .letter (by simp [letters])
  · split
    · next hc => exact .letter (by simp [letters, hc])
    · split
      · exact .number c
      · exact .plain (by assumption) (by assumption) (by assumption)

theorem byNumber_append (c : Char) (r : List Char) :
    byNumber c ++ r =
      '\\' :: 'u' :: '\x7b' :: (Nat.toDigits 16 c.toNat ++ '\x7d' :: r) := by
  simp [byNumber]

theorem byNumber_append_inj {c d : Char} {r s : List Char}
    (h : byNumber c ++ r = byNumber d ++ s) : c = d ∧ r = s := by
  rw [byNumber_append, byNumber_append] at h
  simp only [List.cons.injEq, true_and] at h
  have hdigit : ∀ n, ∀ x ∈ Nat.toDigits 16 n, (x != '\x7d') = true := by
    intro n x hx
    obtain ⟨d, hd, rfl⟩ := exists_digitChar_of_mem (by decide) hx
    exact (by decide : ∀ d < 16, (Nat.digitChar d != '\x7d') = true) d hd
  obtain ⟨hdigits, hrest⟩ := append_inj_of_stop (hdigit _) (hdigit _) (by simp) (by simp) h
  have hcode := toDigits_injective (by decide) (by decide) hdigits
  exact ⟨Char.toNat_inj.1 hcode, (List.cons.inj hrest).2⟩

variable {delimiter : Char}

theorem delimiter_eq (hdelimiter : delimiter ∈ delimiters) :
    delimiter = '\x27' ∨ delimiter = '\x22' := by
  simpa [delimiters] using hdelimiter

theorem letters_inj (hdelimiter : delimiter ∈ delimiters) :
    ∀ x ∈ letters delimiter, ∀ y ∈ letters delimiter, x.2 = y.2 → x.1 = y.1 := by
  rcases delimiter_eq hdelimiter with rfl | rfl <;> decide

theorem letter_ne_u (hdelimiter : delimiter ∈ delimiters) :
    ∀ x ∈ letters delimiter, x.2 ≠ 'u' := by
  rcases delimiter_eq hdelimiter with rfl | rfl <;> decide

theorem ne_backslash (hdelimiter : delimiter ∈ delimiters) : delimiter ≠ '\\' := by
  rcases delimiter_eq hdelimiter with rfl | rfl <;> decide

theorem selfDelimiting_escape (hdelimiter : delimiter ∈ delimiters) :
    SelfDelimiting (escape delimiter) := by
  intro c d r s h
  have hc := escaped_escape delimiter c
  have hd := escaped_escape delimiter d
  generalize escape delimiter c = u at h hc
  generalize escape delimiter d = v at h hd
  cases hc with
  | letter hl =>
    cases hd with
    | letter hl' =>
      simp only [List.cons_append, List.nil_append, List.cons.injEq, true_and] at h
      exact ⟨letters_inj hdelimiter _ hl _ hl' h.1, h.2⟩
    | number =>
      rw [byNumber_append] at h
      exact absurd (List.cons.inj (List.cons.inj h).2).1 (letter_ne_u hdelimiter _ hl)
    | plain hne => exact absurd (List.cons.inj h).1.symm hne
  | number =>
    cases hd with
    | letter hl' =>
      rw [byNumber_append] at h
      exact absurd (List.cons.inj (List.cons.inj h).2).1.symm (letter_ne_u hdelimiter _ hl')
    | number => exact byNumber_append_inj h
    | plain hne => exact absurd (List.cons.inj h).1.symm hne
  | plain hne =>
    cases hd with
    | letter => exact absurd (List.cons.inj h).1 hne
    | number => exact absurd (List.cons.inj h).1 hne
    | plain => exact List.cons.inj h

/-- The closing delimiter is not taken for one more character. -/
theorem delimiter_ne_escape (hdelimiter : delimiter ∈ delimiters) (c : Char) (r s : List Char) :
    delimiter :: r ≠ escape delimiter c ++ s := by
  have hc := escaped_escape delimiter c
  generalize escape delimiter c = u at hc
  intro h
  cases hc with
  | letter => exact ne_backslash hdelimiter (List.cons.inj h).1
  | number => exact ne_backslash hdelimiter (List.cons.inj h).1
  | plain _ hne => exact hne (List.cons.inj h).1.symm

/-- Items that can be told apart where the text behind them does not run into them, and no item
does. -/
structure Itemized {α : Type} (apart : List Char → Prop) (text : α → List Char) : Prop where
  apart_item : ∀ a r, apart (text a ++ r)
  item_inj : ∀ a b r s, apart r → apart s → text a ++ r = text b ++ s → a = b ∧ r = s

/-- Neither runs into the item before it nor goes on with an item. -/
structure Stops {α : Type} (apart : List Char → Prop) (text : α → List Char)
    (rest : List Char) : Prop where
  apart_rest : apart rest
  ne_item : ∀ a r, rest ≠ text a ++ r

namespace Itemized

variable {α : Type} {apart : List Char → Prop} {text : α → List Char} {r s : List Char}

theorem apart_flatMap (h : Itemized apart text) (hr : Stops apart text r) (as : List α) :
    apart (as.flatMap text ++ r) := by
  cases as with
  | nil => exact hr.apart_rest
  | cons a as =>
    rw [List.flatMap_cons, List.append_assoc]
    exact h.apart_item a _

theorem flatMap_append_inj (h : Itemized apart text) (hr : Stops apart text r)
    (hs : Stops apart text s) {as bs : List α}
    (heq : as.flatMap text ++ r = bs.flatMap text ++ s) : as = bs ∧ r = s := by
  induction as generalizing bs with
  | nil =>
    cases bs with
    | nil => exact ⟨rfl, heq⟩
    | cons b bs =>
      rw [List.flatMap_cons, List.append_assoc] at heq
      exact absurd heq (hr.ne_item b _)
  | cons a as ih =>
    rw [List.flatMap_cons, List.append_assoc] at heq
    cases bs with
    | nil => exact absurd heq.symm (hs.ne_item a _)
    | cons b bs =>
      rw [List.flatMap_cons, List.append_assoc] at heq
      obtain ⟨rfl, hrest⟩ :=
        h.item_inj a b _ _ (h.apart_flatMap hr as) (h.apart_flatMap hs bs) heq
      obtain ⟨rfl, rfl⟩ := ih hrest
      exact ⟨rfl, rfl⟩

end Itemized

theorem toList_quote (text : List Char) :
    (quote delimiter text).toList =
      delimiter :: (text.flatMap (escape delimiter) ++ [delimiter]) := by
  simp [quote]

theorem selfDelimiting_quote (hdelimiter : delimiter ∈ delimiters) :
    SelfDelimiting fun text => (quote delimiter text).toList := by
  intro text text' r s h
  have hitems : Itemized (fun _ => True) (escape delimiter) :=
    ⟨fun _ _ => trivial, fun c d r s _ _ => selfDelimiting_escape hdelimiter c d r s⟩
  have hstops : ∀ rest, Stops (fun _ => True) (escape delimiter) (delimiter :: rest) :=
    fun rest => ⟨trivial, fun c => delimiter_ne_escape hdelimiter c rest⟩
  simp only [toList_quote, List.cons_append, List.append_assoc, List.nil_append, List.cons.injEq,
    true_and] at h
  obtain ⟨htext, hrest⟩ := hitems.flatMap_append_inj (hstops r) (hstops s) h
  exact ⟨htext, (List.cons.inj hrest).2⟩

theorem selfDelimiting_quoteChar : SelfDelimiting fun c => (quoteChar c).toList := by
  intro c d r s h
  obtain ⟨htext, hrest⟩ := selfDelimiting_quote (by simp [delimiters]) [c] [d] r s h
  exact ⟨(List.cons.inj htext).1, hrest⟩

theorem selfDelimiting_quoteString : SelfDelimiting fun s => (quoteString s).toList := by
  intro text text' r s h
  obtain ⟨htext, hrest⟩ :=
    selfDelimiting_quote (by simp [delimiters]) text.toList text'.toList r s h
  exact ⟨String.toList_inj.1 htext, hrest⟩

end PatternAutomata.Text
