/-
The distances of the repository's trees (distances.cpp) and what `bk_tree::match` leaves out because of them.

`Domain` pairs each distance function with the words it is called on. Both are metrics there, as computed, so in every
tree that was built by `insert` calls the children that `match` skips have nothing within the threshold below them.

Results:
- `Domain.metric`: the two distances are metrics;
- `metric_prunes`: the same over the computed values, and the subtrees outside the window.
-/
import K23Search.Containers.BkTree

namespace K23Search.BkTree

open K23Search.Lib K23Search.Text

/-- a distance function and the words it is for -/
inductive Domain : Set (List UInt8) → (List UInt8 → List UInt8 → Option ℤ) → Prop where
  | edit : Domain {w | w.length ≤ maxWordLength} editDistance
  | hamming (n : ℕ) : Domain {w | w.length = n} hammingDistance

variable {T : Type} {S : Set (List UInt8)} {dist : List UInt8 → List UInt8 → Option ℤ}

theorem Domain.metric (h : Domain S dist) : ∃ d, MetricOn S dist d := by
  cases h with
  | edit => exact ⟨_, edit_metric⟩
  | hamming n => exact ⟨_, hamming_metric n⟩

/-- the computed values of a metric -/
theorem computed_metric {W : Type} {S : Set W} {dist : W → W → Option ℤ} {d : W → W → ℤ} (hm : MetricOn S dist d)
    {a b c : W} (ha : a ∈ S) (hb : b ∈ S) (hc : c ∈ S) :
    ∃ ab bc ac, dist a b = some ab ∧ dist b a = some ab ∧ dist b c = some bc ∧ dist a c = some ac ∧
      (ab = 0 ↔ a = b) ∧ ac ≤ ab + bc := by
  refine ⟨d a b, d b c, d a c, hm.defined a ha b hb, ?_, hm.defined b hb c hc, hm.defined a ha c hc,
    hm.eq_zero a ha b hb, hm.triangle a ha b hb c hc⟩
  rw [hm.defined b hb a ha, hm.symm b hb a ha]

/-- **The distances are metrics, and the pruning of `match` is sound.** On its words each distance is defined, zero
exactly on equal words, symmetric, and obeys the triangle inequality. In a tree made by any `insert` calls, a child's
`distance_from_parent` is its word's distance to its parent's, and if it is outside `[D - threshold, D + threshold]`,
where `D` is the parent's distance to the query, no word of the child's subtree is within the threshold. -/
theorem metric_prunes (view : T → List UInt8) (h : Domain S dist) :
    (∀ a ∈ S, ∀ b ∈ S, ∀ c ∈ S, ∃ ab bc ac, dist a b = some ab ∧ dist b a = some ab ∧ dist b c = some bc ∧
      dist a c = some ac ∧ (ab = 0 ↔ a = b) ∧ ac ≤ ab + bc) ∧
    ∀ xs : List (T × ℕ), (∀ x ∈ xs, view x.1 ∈ S) → (∀ x ∈ xs, x.2 < bkTreeSkipListLevels) →
      ∃ (t : BkTree T) (kids : ℕ → List ℕ), run (step view dist) empty xs = some t ∧
        (∀ (p : ℕ) (node : BkNode T), t.nodes[p]? = some node → node.children.toList = some (kids p)) ∧
        ∀ q ∈ S, ∀ (p c : ℕ) (node child : BkNode T), t.nodes[p]? = some node → t.nodes[c]? = some child → c ∈ kids p →
          ∃ D, dist (view node.data) q = some D ∧
            dist (view node.data) (view child.data) = some child.distanceFromParent ∧
            ∀ threshold,
              (child.distanceFromParent < D - threshold ∨ D + threshold < child.distanceFromParent) →
              ∀ (i : ℕ) (below : BkNode T), Desc (fun p c => c ∈ kids p) c i → t.nodes[i]? = some below →
                ∃ e, dist (view below.data) q = some e ∧ threshold < e := by
  obtain ⟨d, hm⟩ := h.metric
  refine ⟨fun a ha b hb c hc => computed_metric hm ha hb hc, fun xs hwords hheights => ?_⟩
  obtain ⟨t, kids, ht, hinv, -⟩ := run_spec hm hwords hheights
  have hword : ∀ (i : ℕ) (node : BkNode T), t.nodes[i]? = some node → wordOf view t.nodes i = some (view node.data) :=
    fun i node hi => by rw [wordOf, hi, Option.map_some]
  refine ⟨t, kids, ht, fun p node hp => SkipList.toList_spec (hinv.holds p node hp), ?_⟩
  intro q hq p c node child hp hc hcp
  have hpS := hinv.words p _ (hword p node hp)
  have hdist : distanceOf t.nodes c = child.distanceFromParent := by rw [distanceOf, hc, Option.elim_some]
  refine ⟨_, hm.defined _ hpS q hq, ?_, fun threshold hout i below hi hbelow => ?_⟩
  · rw [hm.defined _ hpS _ (hinv.words c _ (hword c child hc)),
      hinv.edges p c c _ _ hcp .refl (hword p node hp) (hword c child hc), hdist]
  · refine ⟨_, hm.defined _ (hinv.words i _ (hword i below hbelow)) q hq, ?_⟩
    rw [← hdist] at hout
    exact hinv.out_of_reach hm hq hcp hi (hword p node hp) (hword i below hbelow) hout

/-- the Hamming trees of words of two characters: two inserts, whatever the query -/
theorem metric_prunes_two :
    ∃ (t : BkTree (List UInt8)) (kids : ℕ → List ℕ), run (step id hammingDistance) empty [([104, 101], 1), ([97, 98], 0)] = some t ∧
      (∀ (p : ℕ) (node : BkNode (List UInt8)), t.nodes[p]? = some node → node.children.toList = some (kids p)) ∧
      ∀ q : List UInt8, q.length = 2 → ∀ (p c : ℕ) (node child : BkNode (List UInt8)), t.nodes[p]? = some node →
        t.nodes[c]? = some child → c ∈ kids p → ∃ D, hammingDistance node.data q = some D ∧
          hammingDistance node.data child.data = some child.distanceFromParent ∧
          ∀ threshold, (child.distanceFromParent < D - threshold ∨ D + threshold < child.distanceFromParent) →
            ∀ (i : ℕ) (below : BkNode (List UInt8)), Desc (fun p c => c ∈ kids p) c i → t.nodes[i]? = some below →
              ∃ e, hammingDistance below.data q = some e ∧ threshold < e :=
  (metric_prunes id (.hamming 2)).2 [([104, 101], 1), ([97, 98], 0)] (by simp) (by decide)

end K23Search.BkTree
