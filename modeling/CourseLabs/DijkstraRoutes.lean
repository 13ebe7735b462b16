/-
`shortest_path_dijkstra.c`: the routes read back from `parent`.

An entry of `parent` may be written several times, and with links of cost `0` the distance
need not fall on the way back to the source, so neither shows that the chain of parents ends.
What does is the order of the selections. The invariant (`Routed`) keeps, for every node that
has a distance, the route its parents spell out, and says that all nodes of the route but the
last are visited. The entries of visited nodes are never written again, so a route stays as it
is; and a new entry is a node that is not visited behind the route of one that is, so no
route repeats a node.
-/
import CourseLabs.Dijkstra

set_option autoImplicit false

namespace CourseLabs.Dijkstra

open CourseLabs.CInt CourseLabs.CLoop CourseLabs.CMem CourseLabs.PathMath

/-! ## Routes -/

/-- The costs of the links of a path, added up. -/
def linkSum (cost : ℕ → ℕ → ℤ) : List ℕ → ℤ
  | u :: v :: path => cost u v + linkSum cost (v :: path)
  | _ => 0

/-- The parents of `v` spell out the path from `src` to `v`, of total cost `c`. -/
inductive Route (n src : ℕ) (cost : ℕ → ℕ → ℤ) (parent : ℕ → ℤ) : ℕ → List ℕ → ℤ → Prop
  | source (hsrc : src < n) (h : parent src = -1) : Route n src cost parent src [src] 0
  | step {u v : ℕ} {path : List ℕ} {c : ℤ} (h : Route n src cost parent u path c)
      (hparent : parent v = (u : ℤ)) (hv : v < n) (hlink : cost u v ≠ INF) (hnew : v ∉ path) :
      Route n src cost parent v (path ++ [v]) (c + cost u v)

section Route

variable {n src v : ℕ} {cost : ℕ → ℕ → ℤ} {parent parent' : ℕ → ℤ} {path : List ℕ} {c : ℤ}

theorem Route.head (h : Route n src cost parent v path c) : ∃ rest, path = src :: rest := by
  induction h with
  | source => exact ⟨[], rfl⟩
  | step _ _ _ _ _ ih =>
      obtain ⟨rest, rfl⟩ := ih
      exact ⟨_, List.cons_append⟩

theorem Route.last (h : Route n src cost parent v path c) : path.getLast? = some v := by
  cases h with
  | source => rfl
  | step => exact List.getLast?_concat

theorem Route.nodup (h : Route n src cost parent v path c) : path.Nodup := by
  induction h with
  | source => exact List.nodup_singleton src
  | step _ _ _ _ hnew ih =>
      rw [List.nodup_append]
      refine ⟨ih, List.nodup_singleton _, fun x hx y hy => ?_⟩
      rintro rfl
      exact hnew (List.mem_singleton.mp hy ▸ hx)

theorem Route.lt (h : Route n src cost parent v path c) : ∀ x ∈ path, x < n := by
  induction h with
  | source hsrc =>
      intro x hx
      rwa [List.mem_singleton.mp hx]
  | step _ _ hv _ _ ih =>
      intro x hx
      rcases List.mem_append.mp hx with hx | hx
      · exact ih x hx
      · rwa [List.mem_singleton.mp hx]

/-- No node twice, so fewer than `n` steps: this is the bound the recursion of `print_path` needs.
-/
theorem Route.length_le (h : Route n src cost parent v path c) : path.length ≤ n := by
  have hsub : path.toFinset ⊆ Finset.range n := by
    intro x hx
    exact Finset.mem_range.mpr (h.lt x (List.mem_toFinset.mp hx))
  have hcard := Finset.card_le_card hsub
  rwa [List.toFinset_card_of_nodup h.nodup, Finset.card_range] at hcard

theorem Route.links (h : Route n src cost parent v path c) :
    path.IsChain fun x y => parent y = (x : ℤ) ∧ cost x y ≠ INF := by
  induction h with
  | source => exact List.isChain_singleton src
  | step h hparent _ hlink _ ih =>
      rw [List.isChain_append]
      refine ⟨ih, List.isChain_singleton _, fun x hx y hy => ?_⟩
      rw [h.last, Option.mem_some] at hx
      rw [List.head?_cons, Option.mem_some] at hy
      rw [← hx, ← hy]
      exact ⟨hparent, hlink⟩

theorem linkSum_snoc {u : ℕ} (hu : path.getLast? = some u) (v : ℕ) :
    linkSum cost (path ++ [v]) = linkSum cost path + cost u v := by
  induction path with
  | nil => cases hu
  | cons x path ih =>
      cases path with
      | nil =>
          obtain rfl := Option.some.inj hu
          simp [linkSum]
      | cons y path =>
          rw [List.getLast?_cons_cons] at hu
          rw [List.cons_append, List.cons_append, linkSum, ← List.cons_append, ih hu, linkSum,
            add_assoc]

theorem Route.sum (h : Route n src cost parent v path c) : linkSum cost path = c := by
  induction h with
  | source => rfl
  | step h _ _ _ _ ih => rw [linkSum_snoc h.last, ih]

/-- A route depends on the parents of its own nodes only. -/
theorem Route.congr (h : Route n src cost parent v path c)
    (heq : ∀ x ∈ path, parent' x = parent x) : Route n src cost parent' v path c := by
  induction h with
  | source hsrc h => exact .source hsrc (by rw [heq src (List.mem_singleton_self src), h])
  | step _ hparent hv hlink hnew ih =>
      have hsub := ih fun x hx => heq x (List.mem_append_left _ hx)
      have hlast := heq _ (List.mem_append_right _ (List.mem_singleton_self _))
      exact .step hsub (hlast.trans hparent) hv hlink hnew

/-- The recursion prints the route: it follows the parents from the destination back to the source,
and the source has none. -/
theorem Route.print_path (h : Route n src cost parent v path c) :
    print_path parent v = some path := by
  induction h with
  | source _ h => rw [Dijkstra.print_path, if_pos h]
  | step _ hparent _ _ _ ih =>
      rw [Dijkstra.print_path, if_neg (by omega), hparent, Int.toNat_natCast, ih]
      rfl

/-- The only route to the source is the empty one. -/
theorem Route.of_source (h : Route n src cost parent src path c) : path = [src] := by
  cases h with
  | source => rfl
  | step h _ _ _ hnew =>
      obtain ⟨rest, rfl⟩ := h.head
      exact absurd List.mem_cons_self hnew

/-- The loop walks back to the node behind the source. -/
theorem Route.next_hop (h : Route n src cost parent v path c) (hne : v ≠ src) :
    ∃ hop, get_next_hop parent v src = some hop ∧ path[1]? = some hop := by
  have hloop : ∃ hop, loop (fun curr =>
      if parent curr ≠ -1 ∧ parent curr ≠ (src : ℤ) then
        some (.next (parent curr).toNat)
      else
        some (.done curr)) v = some hop ∧ path[1]? = some hop := by
    induction h with
    | source => exact absurd rfl hne
    | @step u v path c h hparent _ _ _ ih =>
        by_cases hu : u = src
        · subst hu
          refine ⟨v, loop_done ?_, ?_⟩
          · rw [if_neg (fun hcond => hcond.2 hparent)]
          · rw [h.of_source]
            rfl
        · obtain ⟨hop, hrun, hhop⟩ := ih hu
          refine ⟨hop, ?_, ?_⟩
          · rw [← hrun]
            apply loop_next
            rw [if_pos ⟨by omega, by omega⟩, hparent, Int.toNat_natCast]
          · rw [List.getElem?_append_left]
            · exact hhop
            · by_contra hge
              rw [List.getElem?_eq_none (by omega)] at hhop
              cases hhop
  rw [get_next_hop, if_neg hne]
  exact hloop

end Route

/-! ## The invariant -/

section Routed

variable {n src : ℕ} {cost : ℕ → ℕ → ℤ} {t t' : Tables}

/-- Every node with a distance has a route of that cost, over visited nodes. -/
def Routed (n src : ℕ) (cost : ℕ → ℕ → ℤ) (t : Tables) : Prop :=
  ∀ v, v < n → t.dist v < INF → ∃ path, Route n src cost t.parent v path (t.dist v)
    ∧ ∀ x ∈ path, x = v ∨ t.visited x = true

theorem initialise_routed (cost : ℕ → ℕ → ℤ) (hsrc : src < n) (h : initialise n src t = some t') :
    Routed n src cost t' := by
  obtain ⟨t₀, hrun, hs, hinf, hvis⟩ := initialise_spec n src t
  obtain rfl := Option.some.inj (h.symm.trans hrun)
  intro v hv hlt
  rcases eq_or_ne v src with rfl | hne
  · rw [hs]
    exact ⟨[v], .source hsrc (hvis v hv).2, fun x hx => Or.inl (List.mem_singleton.mp hx)⟩
  · rw [hinf v hv hne] at hlt
    exact absurd hlt (lt_irrefl _)

/-- The relaxation writes no entry of a visited node, so a route through visited nodes stays one
for the rest of the search. -/
theorem Relaxed.visited_kept {u i x : ℕ} (h : Relaxed cost u t i t') (hx : t.visited x = true) :
    t'.dist x = t.dist x ∧ t'.parent x = t.parent x := by
  apply h.kept x
  rintro ⟨-, hunv, -⟩
  rw [hx] at hunv
  cases hunv

/-- **One selection keeps the routes.** A new entry is the selected node's route and the link. -/
theorem Routed.select {u : ℕ} (h : Routed n src cost t) (hu : u < n) (hlt : t.dist u < INF)
    (hrel : Relaxed cost u { t with visited := upd t.visited u true } n t') :
    Routed n src cost t' := by
  have hvis : ∀ x, x = u ∨ t.visited x = true → upd t.visited u true x = true := by
    rintro x (rfl | hx)
    · exact upd_same _ _ _
    · rcases eq_or_ne x u with rfl | hne
      · exact upd_same _ _ _
      · rwa [upd_other hne]
  intro v hv hlt'
  by_cases himp : Improves cost { t with visited := upd t.visited u true } u v
  · obtain ⟨hdist, hparent⟩ := hrel.written v hv himp
    obtain ⟨path, hroute, hpath⟩ := h u hu hlt
    have hroute' := hroute.congr fun x hx => (hrel.visited_kept (hvis x (hpath x hx))).2
    have hnew : v ∉ path := by
      intro hmem
      have hunv : upd t.visited u true v = false := himp.1
      rw [hvis v (hpath v hmem)] at hunv
      cases hunv
    refine ⟨path ++ [v], ?_, fun x hx => ?_⟩
    · rw [hdist]
      exact .step hroute' hparent hv himp.2.1 hnew
    · rcases List.mem_append.mp hx with hx | hx
      · right
        rw [hrel.visited]
        exact hvis x (hpath x hx)
      · exact Or.inl (List.mem_singleton.mp hx)
  · obtain ⟨hdist, hparent⟩ := hrel.kept v (fun hboth => himp hboth.2)
    rw [hdist] at hlt' ⊢
    obtain ⟨path, hroute, hpath⟩ := h v hv hlt'
    refine ⟨path, hroute.congr fun x hx => ?_, fun x hx => ?_⟩
    · rcases hpath x hx with rfl | hx
      · exact hparent
      · exact (hrel.visited_kept (hvis x (Or.inr hx))).2
    · rcases hpath x hx with rfl | hx
      · exact Or.inl rfl
      · right
        rw [hrel.visited]
        exact hvis x (Or.inr hx)

/-- What a pass of the main loop that goes on has done. -/
theorem dijkstra_body_next (hcost : CostsOk n cost) {s s' : ℕ × Tables}
    (hc : Cut n src cost s.1 s.2) (h : dijkstra_body n cost s = some (.next s')) :
    Cut n src cost s'.1 s'.2 ∧ ∃ u, u < n ∧ s.2.dist u < INF
      ∧ Relaxed cost u { s.2 with visited := upd s.2.visited u true } n s'.2 := by
  rw [dijkstra_body] at h
  split at h
  swap
  · cases Option.some.inj h
  obtain ⟨⟨m, u⟩, hsel, h⟩ := Option.bind_eq_some_iff.mp h
  simp only at h
  split at h
  · cases Option.some.inj h
  next hne =>
  obtain ⟨t', hrelax, h⟩ := Option.bind_eq_some_iff.mp h
  obtain rfl := Pass.next.inj (Option.some.inj h)
  obtain ⟨m', u', hsel', hu | ⟨w, hw, rfl, hunv, hlt, hmin⟩⟩ := select_min_spec n s.2
  · obtain ⟨rfl, rfl⟩ := Prod.mk.inj (Option.some.inj (hsel.symm.trans hsel'))
    exact absurd hu.1 hne
  obtain ⟨rfl, rfl⟩ := Prod.mk.inj (Option.some.inj (hsel.symm.trans hsel'))
  rw [Int.toNat_natCast] at hrelax
  -- the two facts about the relaxation are about one run
  obtain ⟨t₁, hrun₁, hcut⟩ := hc.select hcost hw hunv hlt hmin
  obtain rfl := Option.some.inj (hrelax.symm.trans hrun₁)
  obtain ⟨t₂, hrun₂, hrel⟩ :=
    relax_neighbors_spec (t := { s.2 with visited := upd s.2.visited w true }) hcost hw
      (upd_same _ _ _) (hc.range w hw).1 hlt
  obtain rfl := Option.some.inj (hrelax.symm.trans hrun₂)
  exact ⟨hcut, w, hw, hlt, hrel⟩

theorem dijkstra_body_done {s : ℕ × Tables} (h : dijkstra_body n cost s = some (.done t)) :
    t = s.2 := by
  rw [dijkstra_body] at h
  split at h
  swap
  · exact (Pass.done.inj (Option.some.inj h)).symm
  obtain ⟨⟨m, u⟩, -, h⟩ := Option.bind_eq_some_iff.mp h
  simp only at h
  split at h
  · exact (Pass.done.inj (Option.some.inj h)).symm
  · obtain ⟨t', -, h⟩ := Option.bind_eq_some_iff.mp h
    cases Option.some.inj h

/-- **The whole search keeps the routes.** After every round each entry below `INF` has a route
along the parents of the cost it states. -/
theorem dijkstra_routed (hcost : CostsOk n cost) (hsrc : src < n)
    (h : dijkstra n cost src t = some t') : Routed n src cost t' := by
  obtain ⟨t₀, hinit, hrun⟩ := Option.bind_eq_some_iff.mp h
  obtain ⟨t₁, hinit', hcut⟩ := initialise_cut cost hsrc t
  obtain rfl := Option.some.inj (hinit.symm.trans hinit')
  refine loop_inv (fun s => Cut n src cost s.1 s.2 ∧ Routed n src cost s.2)
    (fun t' => Routed n src cost t') ?_ ?_ ⟨hcut, initialise_routed cost hsrc hinit⟩ hrun
  · rintro s s' ⟨hc, hr⟩ hnext
    obtain ⟨hc', u, hu, hlt, hrel⟩ := dijkstra_body_next hcost hc hnext
    exact ⟨hc', hr.select hu hlt hrel⟩
  · rintro s t' ⟨-, hr⟩ hdone
    rwa [dijkstra_body_done hdone]

/-- What is printed for the destination `i`: a path over existing links, given by the parents,
that repeats no node and costs what the table says. -/
structure Reported (n src : ℕ) (cost : ℕ → ℕ → ℤ) (t : Tables) (i : ℕ) (path : List ℕ) :
    Prop where
  first : path.head? = some src
  last : path.getLast? = some i
  nodup : path.Nodup
  nodes : ∀ x ∈ path, x < n
  steps : path.length - 1 < n
  links : path.IsChain fun x y => t.parent y = (x : ℤ) ∧ cost x y ≠ INF
  sum : linkSum cost path = t.dist i
  shortest : ∀ h c, Walk (Link n cost) src i h c → t.dist i ≤ c

/-- **The routes are real shortest paths.** For every destination with a distance the
recursion of `print_path` ends and prints such a path, and `get_next_hop` ends at its second
node. -/
theorem routes_are_paths (hsrc : src < n) (hcost : CostsOk n cost) (t : Tables) :
    ∃ t', dijkstra n cost src t = some t' ∧ ∀ i, i < n → i ≠ src → t'.dist i < INF →
      ∃ path, Reported n src cost t' i path ∧ print_path t'.parent i = some path
        ∧ ∃ hop, get_next_hop t'.parent i src = some hop ∧ path[1]? = some hop := by
  obtain ⟨t', hrun, hs⟩ := dijkstra_spec hcost hsrc t
  have hrouted := dijkstra_routed hcost hsrc hrun
  refine ⟨t', hrun, fun i hi hne hlt => ?_⟩
  obtain ⟨path, hroute, -⟩ := hrouted i hi hlt
  have hhead : path.head? = some src := by
    obtain ⟨rest, rfl⟩ := hroute.head
    rfl
  have hlen := hroute.length_le
  exact ⟨path, ⟨hhead, hroute.last, hroute.nodup, hroute.lt, by omega, hroute.links, hroute.sum,
    fun h c hw => hs.not_beaten i h c hi hw⟩, hroute.print_path, hroute.next_hop hne⟩

/-- Arrays with nothing in them yet. -/
def unset : Tables :=
  ⟨fun _ => 0, fun _ => false, fun _ => 0⟩

/-- What `main` finds for F: its distance, and the parents from F back to A. -/
theorem tables_main {t' : Tables} (hrun : dijkstra 6 main_cost 0 unset = some t') :
    t'.dist 5 = 9 ∧ t'.parent 5 = 3 ∧ t'.parent 3 = 4 ∧ t'.parent 4 = 2 ∧ t'.parent 2 = 1
      ∧ t'.parent 1 = 0 ∧ t'.parent 0 = -1 := by
  -- the search takes six passes at most, and the bounded one evaluates
  have heval : ((initialise 6 0 unset).bind fun t => loopN (dijkstra_body 6 main_cost) 6 (0, t)).map
      (fun t => (t.dist 5, [5, 3, 4, 2, 1, 0].map t.parent)) = some (9, [3, 4, 2, 1, 0, -1]) := by
    decide +kernel
  rw [dijkstra] at hrun
  obtain ⟨t₀, hinit, hloop⟩ := Option.bind_eq_some_iff.mp hrun
  rw [hinit, Option.bind_some] at heval
  obtain ⟨t'', hbounded, hvalues⟩ := Option.map_eq_some_iff.mp heval
  rw [loop_eq_loopN 6 (by rw [hbounded]; rfl)] at hloop
  obtain rfl := Option.some.inj (hloop.symm.trans hbounded)
  simpa using hvalues

/-- In the network of `main` the way to F is A, B, C, E, D, F. -/
theorem routes_are_paths_main :
    ∃ t', dijkstra 6 main_cost 0 unset = some t' ∧ t'.dist 5 = 9
      ∧ Reported 6 0 main_cost t' 5 [0, 1, 2, 4, 3, 5]
      ∧ print_path t'.parent 5 = some [0, 1, 2, 4, 3, 5]
      ∧ get_next_hop t'.parent 5 0 = some 1 := by
  obtain ⟨t', hrun, hroutes⟩ := @routes_are_paths 6 0 main_cost (by decide) main_cost_ok unset
  obtain ⟨hdist, h5, h3, h4, h2, h1, h0⟩ := tables_main hrun
  obtain ⟨path, hreported, hprint, hop, hhop, hsecond⟩ :=
    hroutes 5 (by decide) (by decide) (by rw [hdist]; decide)
  have hpath : print_path t'.parent 5 = some [0, 1, 2, 4, 3, 5] := by
    have back : ∀ {j k : ℕ} {path : List ℕ}, t'.parent j = (k : ℤ) →
        print_path t'.parent k = some path → print_path t'.parent j = some (path ++ [j]) := by
      intro j k path hparent hprint
      rw [print_path, if_neg (by omega), hparent, Int.toNat_natCast, hprint]
      rfl
    have source : print_path t'.parent 0 = some [0] := by rw [print_path, if_pos h0]
    exact back h5 (back h3 (back h4 (back h2 (back h1 source))))
  obtain rfl := Option.some.inj (hprint.symm.trans hpath)
  obtain rfl := Option.some.inj hsecond
  exact ⟨t', hrun, hdist, hreported, hpath, hhop⟩

end Routed

end CourseLabs.Dijkstra
