import Mathlib.Data.List.Basic
import PatternAutomata.Grammar
import PatternAutomata.Juxtaposition

/-!
# Marks and the grammar

Whether a mark is put at a place depends on the two tokens that meet there, so marking a sequence
made of two pieces marks each piece and the seam between them. Everything that reads as an
expression begins with a token that begins an operand and ends with one that ends an operand. So a
factor that follows another one gets a mark, and no other production does: with marks, a
concatenation looks the same whether its dot was written or not.
-/

namespace PatternAutomata

def seam (ts us : List Token) : List Token :=
  if ts.getLast?.any Token.endsOperand && us.head?.any Token.beginsOperand then [.concat] else []

theorem seam_singleton_cons (t u : Token) (us : List Token) :
    seam [t] (u :: us) = if t.endsOperand && u.beginsOperand then [.concat] else [] := rfl

theorem juxtapose_eq (t : Token) (ts : List Token) :
    juxtapose t ts = t :: (seam [t] ts ++ ts) := by
  cases ts with
  | nil => simp [juxtapose, seam]
  | cons u ts =>
    rw [juxtapose, seam_singleton_cons]
    split <;> rfl

theorem seam_congr {ts us vs : List Token} (h : us.head? = vs.head?) : seam ts us = seam ts vs := by
  simp only [seam, h]

theorem seam_cons {t : Token} {ts : List Token} (us : List Token) (hne : ts ≠ []) :
    seam (t :: ts) us = seam ts us := by
  obtain ⟨u, rest, rfl⟩ := List.exists_cons_of_ne_nil hne
  simp only [seam, List.getLast?_cons_cons]

theorem markConcat_append (ts us : List Token) :
    markConcat (ts ++ us) = markConcat ts ++ seam ts us ++ markConcat us := by
  induction ts with
  | nil => simp [seam]
  | cons t ts ih =>
    have hhead : (markConcat us).head? = us.head? := head?_markConcat us
    by_cases hne : ts = []
    · subst hne
      simp only [List.cons_append, List.nil_append, markConcat_cons, markConcat_nil, juxtapose_eq]
      rw [seam_congr hhead]
      simp [seam]
    · have hne' : (markConcat (ts ++ us)).head? = (markConcat ts).head? := by
        rw [head?_markConcat, head?_markConcat, List.head?_append_of_ne_nil _ hne]
      rw [List.cons_append, markConcat_cons, juxtapose_eq, seam_congr hne', ih, markConcat_cons,
        juxtapose_eq, seam_cons us hne]
      simp

theorem markConcat_last {t : Token} (ht : t.beginsOperand = false) (ts : List Token) :
    markConcat (ts ++ [t]) = markConcat ts ++ [t] := by
  rw [markConcat_append]
  simp [seam, ht, juxtapose]

theorem markConcat_between {t : Token} (hb : t.beginsOperand = false) (he : t.endsOperand = false)
    (ts us : List Token) : markConcat (ts ++ t :: us) = markConcat ts ++ t :: markConcat us := by
  rw [markConcat_append, markConcat_cons, juxtapose_eq]
  simp [seam, hb, he]

theorem markConcat_group (ts : List Token) :
    markConcat (.openParen :: ts ++ [.closeParen]) =
      .openParen :: markConcat ts ++ [.closeParen] := by
  rw [markConcat_last rfl, markConcat_cons, juxtapose_eq]
  simp [seam, Token.endsOperand]

namespace Derives

variable {level : Level} {ts us : List Token} {e f : Expr}

theorem begins (h : Derives level ts e) : ts.head?.any Token.beginsOperand := by
  induction h with
  | literal c => rfl
  | group h ih => rfl
  | star h ih | optional h ih | plus h ih | concat h _ ih _ | juxtaposed h _ ih _
  | union h _ ih _ =>
    rw [List.head?_append_of_ne_nil _ h.ne_nil]
    exact ih
  | factor h ih | term h ih => exact ih

theorem ends (h : Derives level ts e) : ts.getLast?.any Token.endsOperand := by
  induction h with
  | literal c => rfl
  | group h ih | star h ih | optional h ih | plus h ih =>
    rw [List.getLast?_concat]
    rfl
  | factor h ih | term h ih => exact ih
  | concat _ h _ ih | union _ h _ ih =>
    rw [List.getLast?_append_of_ne_nil _ (List.cons_ne_nil _ _)]
    obtain ⟨u, rest, hu⟩ := List.exists_cons_of_ne_nil h.ne_nil
    subst hu
    exact ih
  | juxtaposed _ h _ ih =>
    rw [List.getLast?_append_of_ne_nil _ h.ne_nil]
    exact ih

theorem markConcat_juxtaposed {level' : Level} (ht : Derives level ts e)
    (hu : Derives level' us f) :
    markConcat (ts ++ us) = markConcat ts ++ .concat :: markConcat us := by
  rw [markConcat_append, seam, ht.ends, hu.begins]
  simp

end Derives

end PatternAutomata
