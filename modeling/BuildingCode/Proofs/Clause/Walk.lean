import BuildingCode.Clause.Assembly
import BuildingCode.Proofs.Clause.Forest
import BuildingCode.Proofs.Clause.Loop
import BuildingCode.Proofs.Outcome
import Mathlib.Data.List.Perm.Subperm

/-! What the walk down from the roots enters. Whatever the records, it accounts for each record that
it enters. The parent of a record is entered only once if ids are distinct, so then the walk fails only
where it meets the root that it started under, which it does not count as entered. -/
namespace BuildingCode.Clause
open Outcome Relation

def childrenOf (records : List Record) (id : String) : List Record :=
  records.filter fun r => r.parent = some id

/-- What a walk over siblings has grown: every record with all its children in their order, and
nothing that had been entered before. -/
structure Grown (children : String → List Record) (rs : List Record) (seen seen' : Entered)
    (f : Forest) : Prop where
  mem_iff : ∀ x, x ∈ seen' ↔ x ∈ seen ∨ ∃ q ∈ f.flatten, q.id = x
  fresh : ∀ q ∈ f.flatten, q.id ∉ seen
  distinct : Distinct f.flatten
  roots : f.map Node.record = rs
  below : ∀ n ∈ f.nodes, n.children.map Node.record = children n.id

theorem mem_insert {seen : Entered} {id x : String} : x ∈ seen.insert id ↔ x = id ∨ x ∈ seen := by
  rw [Std.TreeSet.mem_insert, Std.LawfulEqOrd.compare_eq_iff_eq, eq_comm]

namespace Grown

variable {children : String → List Record} {rs rs' : List Record} {seen seen' seen'' : Entered}
  {f f' : Forest}

theorem accounts (h : Grown children rs seen seen' f) :
    f.flatten.Perm (rs ++ f.flatten.flatMap fun q => children q.id) := by
  refine f.flatten_perm.trans (.of_eq ?_)
  rw [h.roots, Forest.flatten_eq_map_nodes, List.flatMap_map]
  congr 1
  exact List.flatMap_congr h.below

theorem traced (h : Grown children rs seen seen' f) {Q : Record → Prop} (start : ∀ r ∈ rs, Q r)
    (next : ∀ p, Q p → ∀ q ∈ children p.id, Q q) : ∀ q ∈ f.flatten, Q q := by
  refine Forest.forall_flatten ?_ ?_
  · intro n mem
    exact start _ (h.roots ▸ List.mem_map_of_mem mem)
  · intro n mem here c child
    refine next n.record here _ ?_
    exact h.below n mem ▸ List.mem_map_of_mem child

theorem nil (seen : Entered) : Grown children [] seen seen [] where
  mem_iff := by simp
  fresh := by simp
  distinct := by simp [Distinct]
  roots := rfl
  below := by simp

theorem append (h : Grown children rs seen seen' f) (h' : Grown children rs' seen' seen'' f') :
    Grown children (rs ++ rs') seen seen'' (f ++ f') where
  mem_iff x := by
    rw [h'.mem_iff, h.mem_iff, or_assoc]
    simp only [Forest.flatten_append, List.mem_append, or_and_right, exists_or]
  fresh q mem old := by
    rw [Forest.flatten_append] at mem
    rcases List.mem_append.mp mem with mem | mem
    · exact h.fresh q mem old
    · exact h'.fresh q mem ((h.mem_iff _).mpr (.inl old))
  distinct := by
    unfold Distinct
    rw [Forest.flatten_append, List.map_append, List.nodup_append]
    refine ⟨h.distinct, h'.distinct, ?_⟩
    rintro x first _ second rfl
    obtain ⟨q, mem, rfl⟩ := List.mem_map.mp first
    obtain ⟨q', mem', same⟩ := List.mem_map.mp second
    exact h'.fresh q' mem' (same ▸ (h.mem_iff _).mpr (.inr ⟨q, mem, rfl⟩))
  roots := by rw [List.map_append, h.roots, h'.roots]
  below := by
    rw [Forest.nodes_append, List.forall_mem_append]
    exact ⟨h.below, h'.below⟩

theorem enter {r : Record} (new : r.id ∉ seen)
    (h : Grown children (children r.id) (seen.insert r.id) seen' f) :
    Grown children [r] seen seen' [.mk r f] where
  mem_iff x := by
    rw [h.mem_iff, mem_insert, Forest.flatten_cons, List.exists_mem_cons_iff, Forest.flatten_nil,
      List.append_nil]
    tauto
  fresh q mem old := by
    rw [Forest.flatten_cons, Forest.flatten_nil, List.append_nil] at mem
    rcases List.mem_cons.mp mem with rfl | mem
    · exact new old
    · exact h.fresh q mem (mem_insert.mpr (.inr old))
  distinct := by
    rw [Forest.flatten_cons, Forest.flatten_nil, List.append_nil]
    refine List.nodup_cons.mpr ⟨?_, h.distinct⟩
    intro twice
    obtain ⟨q, mem, same⟩ := List.mem_map.mp twice
    exact h.fresh q mem (mem_insert.mpr (.inl same))
  roots := rfl
  below := by
    rw [Forest.nodes_cons, Forest.nodes_nil, List.append_nil, List.forall_mem_cons]
    exact ⟨h.roots, h.below⟩

end Grown

section
variable {children : String → List Record}

theorem growAll_cons {g : Record → Entered → Except AssemblyError (Node × Entered)} {r : Record}
    {rs : List Record} {node : Node} {nodes : Forest} {seen between last : Entered}
    (first : g r seen = .ok (node, between)) (rest : growAll g rs between = .ok (nodes, last)) :
    growAll g (r :: rs) seen = .ok (node :: nodes, last) := by
  simp only [growAll, first, rest, bind, Except.bind]
  rfl

theorem grown_growAll {g : Record → Entered → Except AssemblyError (Node × Entered)}
    (each : ∀ r seen node seen', g r seen = .ok (node, seen') →
      Grown children [r] seen seen' [node])
    {rs : List Record} {seen seen' : Entered} {nodes : Forest}
    (h : growAll g rs seen = .ok (nodes, seen')) : Grown children rs seen seen' nodes := by
  induction rs generalizing seen nodes with
  | nil =>
    cases h
    exact .nil _
  | cons r rs ih =>
    obtain ⟨⟨node, between⟩, first, h⟩ := bind_eq_ok.mp h
    obtain ⟨⟨more, last⟩, rest, h⟩ := bind_eq_ok.mp h
    cases h
    exact (each r seen node between first).append (ih rest)

theorem grow_succ {levels : Nat} {path : List String} {r : Record} {seen : Entered}
    (new : r.id ∉ seen) : grow children (levels + 1) path r seen = (do
      let (nodes, seen) ←
        growAll (grow children levels (r.id :: path)) (children r.id) (seen.insert r.id)
      return (.mk r nodes, seen)) := by
  rw [grow, if_neg (by rwa [← Std.TreeSet.mem_iff_contains])]

theorem grow_of_growAll {levels : Nat} {path : List String} {r : Record} {nodes : Forest}
    {seen last : Entered} (new : r.id ∉ seen)
    (below : growAll (grow children levels (r.id :: path)) (children r.id) (seen.insert r.id) =
      .ok (nodes, last)) :
    grow children (levels + 1) path r seen = .ok (.mk r nodes, last) := by
  rw [grow_succ new, below]
  rfl

theorem grown_grow (levels : Nat) (path : List String) (r : Record) (seen : Entered) (node : Node)
    (seen' : Entered) (h : grow children levels path r seen = .ok (node, seen')) :
    Grown children [r] seen seen' [node] := by
  induction levels generalizing path r seen node seen' with
  | zero => cases h
  | succ levels ih =>
    by_cases old : r.id ∈ seen
    · rw [grow, if_pos (Std.TreeSet.mem_iff_contains.mp old)] at h
      split at h <;> cases h
    · rw [grow_succ old] at h
      obtain ⟨⟨nodes, last⟩, grown, h⟩ := bind_eq_ok.mp h
      cases h
      exact (grown_growAll (ih (r.id :: path)) grown).enter old

end

/-- The walk over siblings when nothing has been entered. -/
def walkOver (records rs : List Record) : Except AssemblyError (Forest × Entered) :=
  growAll (grow (childrenOf records) records.length []) rs ∅

theorem grown_walkOver {records rs : List Record} {seen : Entered} {f : Forest}
    (h : walkOver records rs = .ok (f, seen)) : Grown (childrenOf records) rs ∅ seen f :=
  grown_growAll (grown_grow records.length []) h

/-- Why a record is not entered whose id has been: below itself it closes a loop. -/
def refusal (path : List String) (r : Record) : AssemblyError :=
  if r.id ∈ path then .cycleDetected (loopFrom path r.id) else .duplicateId r.id

theorem growAll_cons_error {g : Record → Entered → Except AssemblyError (Node × Entered)} {r : Record}
    {rs : List Record} {seen : Entered} {e : AssemblyError} (first : g r seen = .error e) :
    growAll g (r :: rs) seen = .error e := by
  simp only [growAll, first, bind, Except.bind]

theorem growAll_eq_error {g : Record → Entered → Except AssemblyError (Node × Entered)}
    {rs : List Record} {seen : Entered} {e : AssemblyError} (h : growAll g rs seen = .error e) :
    ∃ before r after nodes between, rs = before ++ r :: after ∧
      growAll g before seen = .ok (nodes, between) ∧ g r between = .error e := by
  induction rs generalizing seen with
  | nil => cases h
  | cons r rs ih =>
    rcases bind_eq_error.mp h with failed | ⟨⟨node, between⟩, first, h⟩
    · exact ⟨[], r, rs, [], seen, rfl, rfl, failed⟩
    · rcases bind_eq_error.mp h with failed | ⟨_, _, done⟩
      · obtain ⟨before, s, after, nodes, last, rfl, rest, failed⟩ := ih failed
        exact ⟨r :: before, s, after, node :: nodes, last, rfl, growAll_cons first rest, failed⟩
      · cases done

section
variable {records : List Record} {rs rs' : List Record} {r : Record} {root : Option String}
  {seen seen' : Entered} {f : Forest}

theorem mem_childrenOf {id : String} :
    r ∈ childrenOf records id ↔ r ∈ records ∧ r.parent = some id := by
  simp [childrenOf]

theorem childrenOf_eq_filter (records : List Record) (id : String) :
    childrenOf records id = records.filter (·.parent == some id) :=
  List.filter_congr fun r _ => (beq_eq_decide r.parent (some id)).symm

theorem isReached_eq_true_iff :
    isReached root seen r = true ↔ r.parent = root ∨ ∃ p ∈ seen, r.parent = some p := by
  unfold isReached
  cases r.parent with
  | none => simp
  | some p => simp

theorem isReached_mono (more : ∀ x ∈ seen, x ∈ seen') (h : isReached root seen r = true) :
    isReached root seen' r = true := by
  rw [isReached_eq_true_iff] at h ⊢
  exact h.imp_right fun ⟨p, entered, parent⟩ => ⟨p, more p entered, parent⟩

namespace Grown

theorem subset_records (grown : Grown (childrenOf records) rs seen seen' f)
    (found : ∀ r ∈ rs, r ∈ records) : ∀ q ∈ f.flatten, q ∈ records :=
  grown.traced found fun _ _ _ mem => (mem_childrenOf.mp mem).1

theorem not_transGen (grown : Grown (childrenOf records) rs seen seen' f) {q : Record}
    (mem : q ∈ f.flatten) : ¬TransGen (Linked records) q.id q.id := by
  have inside : ∀ n ∈ f.nodes, ∀ w, Linked records n.id w →
      ∃ m ∈ f.nodes, m.id = w ∧ m.size < n.size := by
    rintro n mem w ⟨r, found, parent, rfl⟩
    have child := mem_childrenOf.mpr ⟨found, parent⟩
    rw [← grown.below n mem] at child
    obtain ⟨m, under, rfl⟩ := List.mem_map.mp child
    exact ⟨m, Forest.mem_nodes_of_mem_children mem under, rfl, Forest.size_lt_of_mem_children under⟩
  obtain ⟨n, node, rfl⟩ := Forest.mem_flatten.mp mem
  have deeper : ∀ w, TransGen (Linked records) n.id w → ∃ m ∈ f.nodes, m.id = w ∧ m.size < n.size := by
    intro w chain
    induction chain with
    | single link => exact inside n node _ link
    | tail _ link ih =>
      obtain ⟨m, found, rfl, smaller⟩ := ih
      obtain ⟨m', found', same, smaller'⟩ := inside m found _ link
      exact ⟨m', found', same, smaller'.trans smaller⟩
  intro loop
  obtain ⟨m, found, same, smaller⟩ := deeper _ loop
  have distinct : (f.nodes.map Node.id).Nodup := f.map_id_nodes ▸ grown.distinct
  obtain rfl := List.inj_on_of_nodup_map distinct found node same
  exact Nat.lt_irrefl _ smaller

end Grown

/-- The walk may enter the siblings: everything entered so far hangs under the root or below something
entered, and the siblings hang there next. The root itself has not been met, and the `first` record
under it comes before all others. -/
structure Enterable (records : List Record) (root : Option String) (first : Record) (seen : Entered)
    (rs : List Record) : Prop where
  upward : ∀ c ∈ records, c.id ∈ seen → isReached root seen c = true
  found : ∀ r ∈ rs, r ∈ records
  new : ∀ r ∈ rs, r.id ∉ seen
  next : ∀ r ∈ rs, isReached root seen r = true
  nodup : rs.Nodup
  unmet : ∀ p ∈ seen, root ≠ some p
  begun : first.id ∈ seen ∨ rs.head? = some first

namespace Enterable

variable {first : Record} {others : List Record}

theorem start (distinct : Distinct records)
    (opens : records.filter (·.parent == root) = first :: others) :
    Enterable records root first ∅ (records.filter (·.parent == root)) where
  upward := by simp
  found r top := (List.mem_filter.mp top).1
  new := by simp
  next r top := isReached_eq_true_iff.mpr (.inl (beq_iff_eq.mp (List.mem_filter.mp top).2))
  nodup := (List.Nodup.of_map _ distinct).filter _
  unmet := by simp
  begun := .inr (by rw [opens, List.head?_cons])

theorem head (h : Enterable records root first seen (r :: rs)) :
    Enterable records root first seen [r] where
  upward := h.upward
  found := by simpa using h.found r List.mem_cons_self
  new := by simpa using h.new r List.mem_cons_self
  next := by simpa using h.next r List.mem_cons_self
  nodup := List.nodup_singleton r
  unmet := h.unmet
  begun := h.begun

theorem below (distinct : Distinct records) (h : Enterable records root first seen [r])
    (other : root ≠ some r.id) :
    Enterable records root first (seen.insert r.id) (childrenOf records r.id) where
  upward c mem entered := by
    refine isReached_mono (fun x old => mem_insert.mpr (.inr old)) ?_
    rcases mem_insert.mp entered with same | entered
    · obtain rfl := distinct.eq_of_id mem (h.found r List.mem_cons_self) same
      exact h.next c List.mem_cons_self
    · exact h.upward c mem entered
  found c mem := (mem_childrenOf.mp mem).1
  new c mem entered := by
    obtain ⟨found, parent⟩ := mem_childrenOf.mp mem
    have reached : isReached root seen c = true := by
      rcases mem_insert.mp entered with same | entered
      · obtain rfl := distinct.eq_of_id found (h.found r List.mem_cons_self) same
        exact h.next c List.mem_cons_self
      · exact h.upward c found entered
    rcases isReached_eq_true_iff.mp reached with top | ⟨p, entered, parent'⟩
    · exact other (top.symm.trans parent)
    · cases parent.symm.trans parent'
      exact h.new r List.mem_cons_self entered
  next c mem :=
    isReached_eq_true_iff.mpr (.inr ⟨r.id, mem_insert.mpr (.inl rfl), (mem_childrenOf.mp mem).2⟩)
  nodup := (List.Nodup.of_map _ distinct).filter _
  unmet p entered := by
    rcases mem_insert.mp entered with rfl | entered
    · exact other
    · exact h.unmet p entered
  begun := by
    refine .inl (mem_insert.mpr ?_)
    rcases h.begun with entered | same
    · exact .inr entered
    · exact .inl (congrArg Record.id (Option.some.inj same).symm)

/-- The first record under the root would stand twice in a forest that has met the root. -/
theorem unmet_of_grown (h : Enterable records root first seen (rs ++ rs'))
    (opens : records.filter (·.parent == root) = first :: others)
    (grown : Grown (childrenOf records) rs seen seen' f) : ∀ q ∈ f.flatten, root ≠ some q.id := by
  rintro q mem rfl
  rw [← childrenOf_eq_filter] at opens
  have child : first ∈ f.flatten.flatMap fun q => childrenOf records q.id :=
    List.mem_flatMap.mpr ⟨q, mem, opens ▸ List.mem_cons_self⟩
  have inside : first ∈ f.flatten := grown.accounts.mem_iff.mpr (List.mem_append_right _ child)
  rcases h.begun with entered | begins
  · exact grown.fresh first inside entered
  · have once := grown.accounts.nodup_iff.mp (List.Nodup.of_map _ grown.distinct)
    cases rs with
    | nil =>
      simp [List.map_eq_nil_iff.mp grown.roots] at mem
    | cons r rs =>
      cases begins
      exact (List.nodup_append.mp once).2.2 first List.mem_cons_self first child rfl

theorem rest (distinct : Distinct records)
    (opens : records.filter (·.parent == root) = first :: others)
    (h : Enterable records root first seen (rs ++ rs'))
    (grown : Grown (childrenOf records) rs seen seen' f) :
    Enterable records root first seen' rs' := by
  have inside : ∀ q ∈ f.flatten, q ∈ records :=
    grown.subset_records fun r mem => h.found r (List.mem_append_left _ mem)
  -- What is entered by now was so before, is a sibling, or has its parent among what grew.
  have origin : ∀ c ∈ records, c.id ∈ seen' → c.id ∈ seen ∨ c ∈ rs ∨
      ∃ e ∈ f.flatten, c.parent = some e.id := by
    intro c found entered
    rcases (grown.mem_iff _).mp entered with old | ⟨q, mem, same⟩
    · exact .inl old
    · obtain rfl := distinct.eq_of_id (inside q mem) found same
      rcases List.mem_append.mp (grown.accounts.mem_iff.mp mem) with sibling | child
      · exact .inr (.inl sibling)
      · obtain ⟨e, mem, child⟩ := List.mem_flatMap.mp child
        exact .inr (.inr ⟨e, mem, (mem_childrenOf.mp child).2⟩)
  have unmet : ∀ q ∈ f.flatten, root ≠ some q.id := h.unmet_of_grown opens grown
  have keeps : ∀ x ∈ seen, x ∈ seen' := fun x old => (grown.mem_iff x).mpr (.inl old)
  have waits : ∀ s ∈ rs', s ∈ rs ++ rs' := fun s mem => List.mem_append_right _ mem
  obtain ⟨_, nodup, apart⟩ := List.nodup_append.mp h.nodup
  refine ⟨?_, fun s mem => h.found s (waits s mem), ?_,
    fun s mem => isReached_mono keeps (h.next s (waits s mem)), nodup, ?_, ?_⟩
  · intro c found entered
    rcases origin c found entered with old | sibling | ⟨e, mem, parent⟩
    · exact isReached_mono keeps (h.upward c found old)
    · exact isReached_mono keeps (h.next c (List.mem_append_left _ sibling))
    · exact isReached_eq_true_iff.mpr (.inr ⟨e.id, (grown.mem_iff _).mpr (.inr ⟨e, mem, rfl⟩), parent⟩)
  · intro s mem entered
    rcases origin s (h.found s (waits s mem)) entered with old | sibling | ⟨e, grew, parent⟩
    · exact h.new s (waits s mem) old
    · exact apart s sibling s mem rfl
    · rcases isReached_eq_true_iff.mp (h.next s (waits s mem)) with top | ⟨p, old, parent'⟩
      · exact unmet e grew (top.symm.trans parent)
      · cases parent.symm.trans parent'
        exact grown.fresh e grew old
  · intro p entered
    rcases (grown.mem_iff p).mp entered with old | ⟨q, mem, rfl⟩
    · exact h.unmet p old
    · exact unmet q mem
  · rcases h.begun with old | begins
    · exact .inl (keeps _ old)
    · cases rs with
      | nil => exact .inr begins
      | cons r rs =>
        cases begins
        have sibling := grown.accounts.mem_iff.mpr (List.mem_append_left _ List.mem_cons_self)
        exact .inl ((grown.mem_iff _).mpr (.inr ⟨first, sibling, rfl⟩))

end Enterable

/-- The path goes down along links, and has room for as many further levels as it can have. -/
structure OnPath (records : List Record) (seen : Entered) (levels : Nat) (path : List String) :
    Prop where
  nodup : path.Nodup
  chain : path.IsChain fun child parent => Linked records parent child
  entered : ∀ x ∈ path, x ∈ seen
  found : ∀ x ∈ path, x ∈ records.map (·.id)
  room : records.length ≤ path.length + levels

namespace OnPath

variable {levels : Nat} {path : List String}

theorem start (records : List Record) (seen : Entered) : OnPath records seen records.length [] :=
  ⟨List.nodup_nil, .nil, by simp, by simp, by simp⟩

theorem length_lt (h : OnPath records seen levels path) (found : r ∈ records)
    (new : r.id ∉ path) : path.length < records.length := by
  have longer : (r.id :: path).Nodup := List.nodup_cons.mpr ⟨new, h.nodup⟩
  have inside : r.id :: path ⊆ records.map (·.id) :=
    List.cons_subset.mpr ⟨List.mem_map_of_mem found, h.found⟩
  have shorter := (List.subperm_of_subset longer inside).length_le
  rwa [List.length_cons, List.length_map] at shorter

theorem mem_of_full (h : OnPath records seen 0 path) (found : r ∈ records) : r.id ∈ path := by
  by_contra new
  have short := h.length_lt found new
  have room := h.room
  omega

theorem push (h : OnPath records seen (levels + 1) path) (found : r ∈ records)
    (follows : ∀ p ∈ path.head?, r.parent = some p) (new : r.id ∉ seen)
    (more : ∀ x ∈ seen.insert r.id, x ∈ seen') : OnPath records seen' levels (r.id :: path) where
  nodup := List.nodup_cons.mpr ⟨fun mem => new (h.entered _ mem), h.nodup⟩
  chain := h.chain.cons fun p last => ⟨r, found, follows p last, rfl⟩
  entered x mem := by
    rcases List.mem_cons.mp mem with rfl | mem
    · exact more _ (mem_insert.mpr (.inl rfl))
    · exact more x (mem_insert.mpr (.inr (h.entered x mem)))
  found := List.cons_subset.mpr ⟨List.mem_map_of_mem found, h.found⟩
  room := by
    have room := h.room
    rw [List.length_cons]
    omega

theorem grow_of_old (h : OnPath records seen levels path) (found : r ∈ records)
    (old : r.id ∈ seen) :
    grow (childrenOf records) levels path r seen = .error (refusal path r) := by
  unfold refusal
  cases levels with
  | zero => rw [if_pos (h.mem_of_full found), grow]
  | succ levels =>
    rw [grow, if_pos (Std.TreeSet.mem_iff_contains.mp old)]
    split <;> rfl

end OnPath

theorem exists_refused {levels : Nat} {path : List String} {e : AssemblyError}
    (onPath : OnPath records seen levels path) (found : r ∈ records)
    (follows : ∀ p ∈ path.head?, r.parent = some p)
    (failed : grow (childrenOf records) levels path r seen = .error e) :
    ∃ path' levels' seen' r', OnPath records seen' levels' path' ∧ r' ∈ records ∧
      (∀ p ∈ path'.head?, r'.parent = some p) ∧ e = refusal path' r' := by
  induction levels generalizing path seen r with
  | zero =>
    have old := onPath.entered _ (onPath.mem_of_full found)
    rw [onPath.grow_of_old found old] at failed
    cases failed
    exact ⟨path, 0, seen, r, onPath, found, follows, rfl⟩
  | succ levels ih =>
    by_cases old : r.id ∈ seen
    · rw [onPath.grow_of_old found old] at failed
      cases failed
      exact ⟨path, _, seen, r, onPath, found, follows, rfl⟩
    · rw [grow_succ old] at failed
      rcases bind_eq_error.mp failed with failed | ⟨_, _, done⟩
      · obtain ⟨before, c, after, nodes, between, split, made, failed⟩ := growAll_eq_error failed
        have grown := grown_growAll (grown_grow levels (r.id :: path)) made
        have child : c ∈ childrenOf records r.id := split ▸ by simp
        obtain ⟨found', parent⟩ := mem_childrenOf.mp child
        have deeper : OnPath records between levels (r.id :: path) :=
          onPath.push found follows old fun x mem => (grown.mem_iff x).mpr (.inl mem)
        exact ih deeper found' (by simpa using parent) failed
      · cases done

/-- Over distinct ids a walk fails only where it meets the root that it started under, at the record
that it started with. -/
theorem refused_first (distinct : Distinct records) {first : Record} {others : List Record}
    (opens : records.filter (·.parent == root) = first :: others)
    {levels : Nat} {path : List String} {e : AssemblyError}
    (onPath : OnPath records seen levels path) (h : Enterable records root first seen [r])
    (follows : ∀ p ∈ path.head?, r.parent = some p)
    (failed : grow (childrenOf records) levels path r seen = .error e) :
    ∃ p path', root = some p ∧ ReflTransGen (Linked records) r.id p ∧ e = refusal path' first ∧
      (first.id ∈ path' ↔ first.id ∈ r.id :: path) := by
  have found := h.found r List.mem_cons_self
  have new := h.new r List.mem_cons_self
  induction levels generalizing path seen r with
  | zero => exact absurd (onPath.entered _ (onPath.mem_of_full found)) new
  | succ levels ih =>
    have entered : first.id ∈ seen.insert r.id := by
      rcases h.begun with old | begins
      · exact mem_insert.mpr (.inr old)
      · exact mem_insert.mpr (.inl (congrArg Record.id (Option.some.inj begins).symm))
    rw [grow_succ new] at failed
    have deeper : ∀ seen', (∀ x ∈ seen.insert r.id, x ∈ seen') →
        OnPath records seen' levels (r.id :: path) := fun _ => onPath.push found follows new
    rcases bind_eq_error.mp failed with failed | ⟨_, _, done⟩
    · by_cases met : root = some r.id
      · -- Its first child has been entered, so the walk comes no further.
        rw [met, ← childrenOf_eq_filter] at opens
        have child : first ∈ childrenOf records r.id := opens ▸ List.mem_cons_self
        have refused :=
          (deeper _ fun _ mem => mem).grow_of_old (mem_childrenOf.mp child).1 entered
        rw [opens, growAll_cons_error refused] at failed
        cases failed
        exact ⟨r.id, r.id :: path, met, .refl, rfl, .rfl⟩
      · obtain ⟨before, c, after, nodes, between, split, made, failed⟩ := growAll_eq_error failed
        have grown := grown_growAll (grown_grow levels (r.id :: path)) made
        have keeps : ∀ x ∈ seen.insert r.id, x ∈ between := fun x mem => (grown.mem_iff x).mpr (.inl mem)
        have child : c ∈ childrenOf records r.id := split ▸ by simp
        obtain ⟨found', parent⟩ := mem_childrenOf.mp child
        have enterable : Enterable records root first between [c] :=
          ((split ▸ h.below distinct met).rest distinct opens grown).head
        have new' := enterable.new c List.mem_cons_self
        obtain ⟨p, path', top, chain, refused, same⟩ :=
          ih (deeper between keeps) enterable (by simpa using parent) failed found' new'
        refine ⟨p, path', top, .head ⟨c, found', parent, rfl⟩ chain, refused, same.trans ?_⟩
        have other : first.id ≠ c.id := fun same => new' (same ▸ keeps _ entered)
        rw [List.mem_cons, or_iff_right other]
    · cases done

theorem refused_of_walk (distinct : Distinct records) {e : AssemblyError}
    (failed : walkOver records (records.filter (·.parent == root)) = .error e) :
    ∃ p first before r after nodes path, root = some p ∧
      (records.filter (·.parent == root)).head? = some first ∧
      records.filter (·.parent == root) = before ++ r :: after ∧
      walkOver records before = .ok nodes ∧
      ReflTransGen (Linked records) r.id p ∧ e = refusal path first ∧
      (first.id ∈ path ↔ first.id = r.id) := by
  obtain ⟨before, r, after, nodes, seen, split, made, failed⟩ := growAll_eq_error failed
  obtain ⟨first, others, opens⟩ : ∃ first others, records.filter (·.parent == root) = first :: others :=
    List.exists_cons_of_ne_nil (by simp [split])
  have grown := grown_walkOver made
  have enterable : Enterable records root first seen [r] :=
    ((split ▸ Enterable.start distinct opens).rest distinct opens grown).head
  obtain ⟨p, path, top, chain, refused, same⟩ :=
    refused_first distinct opens (.start records seen) enterable (by simp) failed
  rw [List.mem_singleton] at same
  exact ⟨p, first, before, r, after, (nodes, seen), path, top, by rw [opens, List.head?_cons], split,
    made, chain, refused, same⟩

end
end BuildingCode.Clause
