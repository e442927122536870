import Mathlib.Data.List.Perm.Basic
import PatternAutomata.Automaton.Recipe
import PatternAutomata.Proofs.Assembly

/-!
# Recipes carried out side by side

The results that no call has used yet stand for the parts of an assembly, each wired for its own
recipe. A call takes its operands out of the stock and puts its result there, and leaves the other
results as they are. So in whatever order the calls of several recipes come, and whatever stays
unfinished, matching from the entry of an unused result decides the language of its recipe.
-/

namespace PatternAutomata.Call

open Automaton

/-- The unused results, by number, with the parts they are the fragments of. -/
structure Stocked (m : Automaton) (made : List Fragment) (recipes : List Recipe)
    (stock : List (Nat × Part)) : Prop where
  assembled : m.Assembled (stock.map Prod.snd)
  made_eq : ∀ x ∈ stock, made[x.1]? = some x.2.fragment
  recipe_eq : ∀ x ∈ stock, ∃ r, recipes[x.1]? = some r ∧ r.language = x.2.language

namespace Stocked

variable {m m' : Automaton} {made : List Fragment} {recipes : List Recipe}
  {stock taken rest : List (Nat × Part)} {p : Part} {r : Recipe}

theorem empty : Stocked .empty [] [] [] := by
  refine ⟨.empty 0, ?_, ?_⟩
  · intro x hx
    cases hx
  · intro x hx
    cases hx

theorem perm (h : Stocked m made recipes stock) (hperm : stock.Perm rest) :
    Stocked m made recipes rest := by
  refine ⟨h.assembled.perm (hperm.map Prod.snd), ?_, ?_⟩
  · intro x hx
    exact h.made_eq x (hperm.mem_iff.2 hx)
  · intro x hx
    exact h.recipe_eq x (hperm.mem_iff.2 hx)

theorem getD_made (h : Stocked m made recipes stock) {x : Nat × Part} (hx : x ∈ stock)
    (f : Fragment) : made.getD x.1 f = x.2.fragment := by
  rw [List.getD_eq_getElem?_getD, h.made_eq x hx]
  rfl

theorem language_getD (h : Stocked m made recipes stock) {x : Nat × Part} (hx : x ∈ stock)
    (r : Recipe) : (recipes.getD x.1 r).language = x.2.language := by
  obtain ⟨r', hr', hlanguage⟩ := h.recipe_eq x hx
  rw [List.getD_eq_getElem?_getD, hr']
  exact hlanguage

theorem getElem?_append {α : Type} {made : List α} {i : Nat} {a : α} (h : made[i]? = some a)
    (last : α) : (made ++ [last])[i]? = some a := by
  rw [List.getElem?_append_left (List.getElem?_eq_some_iff.1 h).1]
  exact h

theorem extend (h : Stocked m made recipes (taken ++ rest))
    (hlength : made.length = recipes.length) (hm' : m'.Assembled (p :: rest.map Prod.snd))
    (hr : r.language = p.language) :
    Stocked m' (made ++ [p.fragment]) (recipes ++ [r]) ((made.length, p) :: rest) := by
  refine ⟨hm', ?_, ?_⟩
  · intro x hx
    rcases List.mem_cons.1 hx with rfl | hx
    · exact List.getElem?_concat_length
    · exact getElem?_append (h.made_eq x (List.mem_append_right _ hx)) _
  · intro x hx
    rcases List.mem_cons.1 hx with rfl | hx
    · rw [hlength]
      exact ⟨r, List.getElem?_concat_length, hr⟩
    · obtain ⟨r', hr', hlanguage⟩ := h.recipe_eq x (List.mem_append_right _ hx)
      exact ⟨r', getElem?_append hr' _, hlanguage⟩

theorem eq_single {i : Nat} (h : taken.map Prod.fst = [i]) : ∃ p, taken = [(i, p)] := by
  obtain ⟨x, xs, rfl, rfl, hxs⟩ := List.map_eq_cons_iff.1 h
  obtain rfl := List.map_eq_nil_iff.1 hxs
  exact ⟨x.2, rfl⟩

theorem eq_pair {i j : Nat} (h : taken.map Prod.fst = [i, j]) :
    ∃ p q, taken = [(i, p), (j, q)] := by
  obtain ⟨x, xs, rfl, rfl, hxs⟩ := List.map_eq_cons_iff.1 h
  obtain ⟨q, rfl⟩ := eq_single hxs
  exact ⟨x.2, q, rfl⟩

theorem step (h : Stocked m made recipes (taken ++ rest)) (hlength : made.length = recipes.length)
    (call : Call) (htaken : taken.map Prod.fst = call.operands) :
    ∃ p m', call.rule made m = .ok p.fragment m' ∧
      Stocked m' (made ++ [p.fragment]) (recipes ++ [call.recipe recipes])
        ((made.length, p) :: rest) := by
  have hparts := h.assembled
  rw [List.map_append] at hparts
  cases call with
  | epsilon =>
    obtain rfl := List.map_eq_nil_iff.1 htaken
    obtain ⟨m', hrule, hm'⟩ := hparts.epsilon
    exact ⟨_, m', hrule, h.extend hlength hm' rfl⟩
  | symbol c =>
    obtain rfl := List.map_eq_nil_iff.1 htaken
    obtain ⟨m', hrule, hm'⟩ := hparts.symbol c
    exact ⟨_, m', hrule, h.extend hlength hm' rfl⟩
  | concat i j =>
    obtain ⟨p, q, rfl⟩ := eq_pair htaken
    have hi : (i, p) ∈ [(i, p), (j, q)] ++ rest := by simp
    have hj : (j, q) ∈ [(i, p), (j, q)] ++ rest := by simp
    obtain ⟨m', hrule, hm'⟩ := hparts.concat
    refine ⟨_, m', ?_, h.extend hlength hm' ?_⟩
    · rw [rule, h.getD_made hi, h.getD_made hj]
      exact hrule
    · rw [recipe, Recipe.language, h.language_getD hi, h.language_getD hj]
      rfl
  | union i j =>
    obtain ⟨p, q, rfl⟩ := eq_pair htaken
    have hi : (i, p) ∈ [(i, p), (j, q)] ++ rest := by simp
    have hj : (j, q) ∈ [(i, p), (j, q)] ++ rest := by simp
    obtain ⟨m', hrule, hm'⟩ := hparts.union
    refine ⟨_, m', ?_, h.extend hlength hm' ?_⟩
    · rw [rule, h.getD_made hi, h.getD_made hj]
      exact hrule
    · rw [recipe, Recipe.language, h.language_getD hi, h.language_getD hj]
      rfl
  | closure i =>
    obtain ⟨p, rfl⟩ := eq_single htaken
    have hi : (i, p) ∈ [(i, p)] ++ rest := by simp
    obtain ⟨m', hrule, hm'⟩ := hparts.closure
    refine ⟨_, m', ?_, h.extend hlength hm' ?_⟩
    · rw [rule, h.getD_made hi]
      exact hrule
    · rw [recipe, Recipe.language, h.language_getD hi]
      rfl

end Stocked

def unused (calls : List Call) : List Nat :=
  (List.range calls.length).filter (· ∉ used calls)

theorem mem_unused {calls : List Call} {i : Nat} :
    i ∈ unused calls ↔ i < calls.length ∧ i ∉ used calls := by
  simp [unused]

theorem nodup_unused (calls : List Call) : (unused calls).Nodup :=
  List.nodup_range.filter _

namespace Orderly

variable {calls : List Call} {call : Call}

theorem lt_of_used (h : Orderly calls) {i : Nat} (hi : i ∈ used calls) : i < calls.length := by
  obtain ⟨call, hcall, hoperand⟩ := List.mem_flatMap.1 hi
  obtain ⟨n, hn⟩ := List.getElem?_of_mem hcall
  have hearlier : i < n :=
    h.earlier (call, n) (List.mk_mem_zipIdx_iff_getElem?.2 hn) i hoperand
  exact hearlier.trans (List.getElem?_eq_some_iff.1 hn).1

theorem exists_perm (h : Orderly (calls ++ [call])) :
    ∃ others, (unused calls).Perm (call.operands ++ others) ∧
      (unused (calls ++ [call])).Perm (calls.length :: others) := by
  have hnodup := nodup_unused calls
  refine ⟨(unused calls).filter (· ∉ call.operands), ?_, ?_⟩
  · refine (List.perm_ext_iff_of_nodup hnodup ?_).2 fun i => ?_
    · refine List.nodup_append.2 ⟨h.nodup_operands, hnodup.filter _, ?_⟩
      intro i hi j hj hij
      simp [← hij, hi] at hj
    · have hoperand : i ∈ call.operands → i ∈ unused calls := fun hi =>
        mem_unused.2 ⟨h.operand_lt hi, h.operand_unused hi⟩
      by_cases hi : i ∈ call.operands <;> simp [hi, hoperand]
  · refine (List.perm_ext_iff_of_nodup (nodup_unused _) ?_).2 fun i => ?_
    · refine List.nodup_cons.2 ⟨?_, hnodup.filter _⟩
      simp [mem_unused]
    · have hused : calls.length ∉ used calls := fun hi => Nat.lt_irrefl _ (h.init.lt_of_used hi)
      have hoperand : calls.length ∉ call.operands := fun hi => Nat.lt_irrefl _ (h.operand_lt hi)
      simp only [mem_unused, List.mem_cons, List.mem_filter, used_append_singleton,
        List.length_append, List.length_singleton, List.mem_append, not_or, decide_eq_true_eq]
      by_cases hi : i = calls.length
      · simp [hi, hused, hoperand]
      · have hlt : i < calls.length + 1 ↔ i < calls.length := by omega
        simp only [hlt, hi, false_or, and_assoc]

theorem exists_stocked (h : Orderly calls) :
    ∃ made m stock, run calls .empty = .ok made m ∧ made.length = calls.length ∧
      Stocked m made (recipes calls) stock ∧ (stock.map Prod.fst).Perm (unused calls) := by
  induction calls using List.reverseRecOn with
  | nil => exact ⟨[], .empty, [], rfl, rfl, .empty, .nil⟩
  | append_singleton calls call ih =>
    obtain ⟨made, m, stock, hrun, hlength, hstock, hlabels⟩ := ih h.init
    obtain ⟨others, hoperands, hunused⟩ := h.exists_perm
    -- the numbers of the operands and the others come with the parts that the stock has for them
    obtain ⟨sorted, hsorted, hperm⟩ : ∃ sorted : List (Nat × Part),
        call.operands ++ others = sorted.map Prod.fst ∧ sorted.Perm stock := by
      have hcomp := congrFun₂ (List.eq_map_comp_perm Prod.fst) (call.operands ++ others) stock
      exact hcomp.mpr (hlabels.trans hoperands).symm
    obtain ⟨taken, rest, rfl, htaken, hothers⟩ := List.map_eq_append_iff.1 hsorted.symm
    have hlength' : made.length = (recipes calls).length := by
      rw [hlength, length_recipes]
    obtain ⟨p, m', hcall, hstock'⟩ := (hstock.perm hperm.symm).step hlength' call htaken
    refine ⟨_, m', (made.length, p) :: rest, run_append_singleton hrun hcall, ?_, ?_, ?_⟩
    · simp [hlength]
    · rw [recipes_append_singleton]
      exact hstock'
    · rw [List.map_cons, hothers, hlength]
      exact hunused.symm

/-- Whatever the order of the calls, and whatever else stands unfinished beside it, an unused result
decides the language of its recipe once matching starts at its entry. -/
theorem unused_decides_recipe (h : Orderly calls) :
    ∃ made m, run calls .empty = .ok made m ∧ made.length = calls.length ∧
      ∀ i < calls.length, i ∉ used calls → ∃ f r m', made[i]? = some f ∧
        (recipes calls)[i]? = some r ∧ EditM.setStart f.entry m = .ok () m' ∧
        ∀ input, ∃ b, m'.isMatch input = .ok b ∧ (b = true ↔ input.toList ∈ r.language) := by
  obtain ⟨made, m, stock, hrun, hlength, hstock, hlabels⟩ := h.exists_stocked
  refine ⟨made, m, hrun, hlength, fun i hi hunused => ?_⟩
  have hmem : i ∈ stock.map Prod.fst := hlabels.mem_iff.2 (mem_unused.2 ⟨hi, hunused⟩)
  obtain ⟨x, hx, rfl⟩ := List.mem_map.1 hmem
  obtain ⟨r, hr, hlanguage⟩ := hstock.recipe_eq x hx
  refine ⟨_, r, _, hstock.made_eq x hx, hr, EditM.setStart_run m _, fun input => ?_⟩
  rw [hlanguage]
  have hm := hstock.assembled.withStart x.2.fragment.entry
  exact hm.isMatch_eq_ok (List.mem_map_of_mem hx) rfl input

end Orderly

def interleaved : List Call :=
  [.epsilon, .symbol 'b', .epsilon, .symbol 'a', .concat 0 2, .closure 1, .closure 4, .epsilon,
    .concat 6 3, .union 8 7]

theorem unused_decides_recipe_interleaved :
    Orderly interleaved ∧ ∃ made m, run interleaved .empty = .ok made m ∧
      ∃ f m', made[9]? = some f ∧ EditM.setStart f.entry m = .ok () m' ∧
        ∀ input, ∃ b, m'.isMatch input = .ok b ∧
          (b = true ↔ input.toList ∈ (KStar.kstar (1 * 1) * {['a']} + 1 : Language Char)) := by
  have h : Orderly interleaved := ⟨by decide, by decide⟩
  obtain ⟨made, m, hrun, -, hunused⟩ := h.unused_decides_recipe
  obtain ⟨f, r, m', hf, hr, hstart, hmatch⟩ := hunused 9 (by decide) (by decide)
  have hrecipe : Recipe.union (.concat (.closure (.concat .epsilon .epsilon)) (.symbol 'a'))
      .epsilon = r := Option.some.inj hr
  subst hrecipe
  exact ⟨h, made, m, hrun, f, m', hf, hstart, hmatch⟩

end PatternAutomata.Call
