-- The robots.txt files that the crawler keeps: `RobotsManager` of `parser/RobotsManager.h` and
-- `.cpp`. The nodes are linked by hand behind a dummy head, and a map finds them by domain.
import Seamus.RobotsTxt
import Seamus.HtmlTags
import Seamus.Library.LinkedList
import Seamus.Library.Recency
import Mathlib.Data.List.AList

open linked_list recency seamus.html_tags seamus.robots_txt

namespace seamus.robots_cache

/-! ## `ParsedUrl` -/

/-- What is behind the host and the port, without its first slash. -/
def parsedPath (url : Bytes) : Bytes :=
  match (cString url).dropWhile (· ≠ 58) with
  | [] => []
  | _ :: p =>
    let p := dropSlash (dropSlash p)
    let p := p.dropWhile fun c => c ≠ slash && c ≠ 58
    let p := if p.head? = some 58 then p.dropWhile (· ≠ slash) else p
    p.drop 1

/-- `RobotsTxt::UrlAllowed`. -/
def urlAllowed (rules : List Rule) (user url : Bytes) : Bool :=
  (pathAllowed rules user (parsedPath url)).1

/-! ## `RobotsManager` -/

def USER_AGENT : Bytes := ascii "Seamus the Search Engine (web crawler for university course)"

inductive CrawlStatus where
  | allowed | disallowed | pending
  deriving DecidableEq, Repr

/-- What a node holds. The dummies have no rules. -/
structure Cached where
  domain : Bytes
  rules : Option (List Rule)

def null : Addr := 0

/-- `new`: any address that is not in use. -/
structure Allocator where
  next : List Addr → Addr
  fresh : ∀ live, next live ∉ live
  not_null : ∀ live, next live ≠ null

structure RobotsManager where
  capacity : Nat
  currentSize : Nat
  head : Addr
  tail : Addr
  cacheMap : AList fun _ : Bytes => Addr
  cells : Cells Cached
  /-- The addresses in use. -/
  live : List Addr

/-- A call, with the body that `https_get` gives for the domain: none where the fetch fails. -/
structure Call where
  domain : Bytes
  url : Bytes
  body : Bytes
  /-- What the constructor of `RobotsTxt` finds in a variable that it does not set. -/
  uninitialized : StatementType

section Manager

variable (malloc : Allocator)

def newManager (capacity : Nat) : RobotsManager :=
  let head := malloc.next []
  let tail := malloc.next [head]
  let cells := store (fun _ => ⟨⟨[], none⟩, null, null⟩) head ⟨⟨[], none⟩, null, tail⟩
  { capacity, currentSize := 0, head, tail, cacheMap := ∅
    cells := store cells tail ⟨⟨[], none⟩, head, null⟩, live := [tail, head] }

/-- The node before the tail goes, and its entry of the map. -/
def evict (m : RobotsManager) : RobotsManager :=
  let lru := (m.cells m.tail).prev
  let cells := setNext m.cells (m.cells lru).prev m.tail
  let cells := setPrev cells m.tail (cells lru).prev
  { m with
    currentSize := m.currentSize - 1
    cacheMap := m.cacheMap.erase (cells lru).val.domain
    cells
    live := m.live.erase lru }

/-- A new node behind the head, and its entry of the map. -/
def insertNew (m : RobotsManager) (domain : Bytes) (rules : List Rule) : Addr × RobotsManager :=
  let node := malloc.next m.live
  (node, { m with
    currentSize := m.currentSize + 1
    cacheMap := m.cacheMap.insert domain node
    cells := linkBehind (store m.cells node ⟨⟨domain, some rules⟩, null, null⟩) m.head node
    live := node :: m.live })

def fetchAndParse (m : RobotsManager) (call : Call) : Addr × RobotsManager :=
  match m.cacheMap.lookup call.domain with
  | some node => (node, m)
  | none =>
    let m := if m.capacity ≤ m.currentSize then evict m else m
    insertNew malloc m call.domain ((parseGroups call.uninitialized call.body).map Group.rule)

/-- The node of the domain moves behind the head. No status if it has no rules. -/
def checkStatus (m : RobotsManager) (call : Call) : Option CrawlStatus × RobotsManager :=
  let (node, m) := fetchAndParse malloc m call
  let cells := linkBehind (unlink m.cells node) m.head node
  ((cells node).val.rules.map fun rules =>
    if urlAllowed rules USER_AGENT call.url then .allowed else .disallowed, { m with cells })

/-- The manager after the calls. -/
def run (capacity : Nat) (calls : List Call) : RobotsManager :=
  calls.foldl (fun m call => (checkStatus malloc m call).2) (newManager malloc capacity)

end Manager

/-- The domains of the list behind the head, up to the tail. -/
def RobotsManager.domains (m : RobotsManager) : List Bytes :=
  (walk m.cells m.tail m.live.length (m.cells m.head).next).map fun a => (m.cells a).val.domain

/-- The domains of the lookup map. -/
def RobotsManager.keys (m : RobotsManager) : List Bytes := m.cacheMap.keys

/-! ## The invariant -/

def domainOf (m : RobotsManager) (a : Addr) : Bytes := (m.cells a).val.domain

/-- The list and the map hold the nodes of the same addresses. -/
structure Holds (m : RobotsManager) (addrs : List Addr) : Prop where
  chain : Chain m.cells (m.head :: (addrs ++ [m.tail]))
  live : m.live.Perm (m.head :: (addrs ++ [m.tail]))
  size : m.currentSize = addrs.length
  entries : ∀ domain a, m.cacheMap.lookup domain = some a ↔ a ∈ addrs ∧ domainOf m a = domain
  rules : ∀ a ∈ addrs, (m.cells a).val.rules.isSome

variable {malloc : Allocator} {m : RobotsManager} {addrs ls rs : List Addr} {node lru : Addr}
  {domain : Bytes} {rules : List Rule} {call : Call}

theorem Holds.domains_eq (h : Holds m addrs) : m.domains = addrs.map (domainOf m) := by
  have hlength : addrs.length < m.live.length := by
    rw [h.live.length_eq, List.length_cons, List.length_append]
    omega
  rw [RobotsManager.domains, walk_eq h.chain hlength]
  rfl

theorem Holds.mem_keys (h : Holds m addrs) : domain ∈ m.keys ↔ domain ∈ addrs.map (domainOf m) := by
  rw [RobotsManager.keys, ← AList.mem_keys, ← AList.lookup_isSome, Option.isSome_iff_exists,
    List.mem_map]
  exact exists_congr fun a => h.entries domain a

/-- Two nodes do not hold the same domain. -/
theorem Holds.domainOf_inj (h : Holds m addrs) {a b : Addr} (ha : a ∈ addrs) (hb : b ∈ addrs)
    (hab : domainOf m a = domainOf m b) : a = b := by
  have hfirst := (h.entries (domainOf m b) a).mpr ⟨ha, hab⟩
  have hsecond := (h.entries (domainOf m b) b).mpr ⟨hb, rfl⟩
  exact Option.some.inj (hfirst.symm.trans hsecond)

theorem Holds.nodup (h : Holds m addrs) : addrs.Nodup :=
  ((List.nodup_cons.mp h.chain.nodup).2).of_append_left

theorem Holds.domains_nodup (h : Holds m addrs) : (addrs.map (domainOf m)).Nodup :=
  h.nodup.map_on fun _ ha _ hb => h.domainOf_inj ha hb

/-! ## Eviction -/

theorem evict_cells (h : Holds m (addrs ++ [lru])) :
    evict m = { m with
      currentSize := m.currentSize - 1
      cacheMap := m.cacheMap.erase (domainOf m lru)
      cells := unlink m.cells lru
      live := m.live.erase lru } := by
  have hchain := h.chain
  rw [List.append_assoc, ← List.cons_append] at hchain
  have hlinked : Linked m.cells lru m.tail := hchain.linked_of_append
  simp [evict, unlink, hlinked.1, hlinked.2, domainOf]

theorem evict_holds (h : Holds m (addrs ++ [lru])) : Holds (evict m) addrs := by
  have hchain := h.chain
  have hlive := h.live
  rw [List.append_assoc, ← List.cons_append] at hchain hlive
  have hapart := hchain.apart
  rw [evict_cells h]
  refine ⟨hchain.unlink (List.cons_ne_nil _ _) (List.cons_ne_nil _ _), ?_, ?_, ?_, ?_⟩
  · have herase := (hlive.trans List.perm_middle).erase lru
    rw [List.erase_cons_head] at herase
    exact herase
  · show m.currentSize - 1 = addrs.length
    rw [h.size, List.length_append]
    rfl
  · intro domain a
    rw [show domainOf _ a = domainOf m a from congrArg Cached.domain (unlink_val m.cells lru a)]
    show (m.cacheMap.erase (domainOf m lru)).lookup domain = some a ↔ _
    by_cases hdomain : domain = domainOf m lru
    · subst hdomain
      rw [AList.lookup_erase]
      refine ⟨fun hnone => absurd hnone.symm (Option.some_ne_none a), fun ⟨ha, hsame⟩ => ?_⟩
      have hlru := h.domainOf_inj (List.mem_append_left _ ha)
        (List.mem_append_right _ List.mem_cons_self) hsame
      exact absurd List.mem_cons_self (hlru ▸ hapart a (List.mem_cons_of_mem _ ha))
    · rw [AList.lookup_erase_ne hdomain, h.entries, List.mem_append, List.mem_singleton]
      refine and_congr_left fun hsame => or_iff_left_of_imp ?_
      rintro rfl
      exact absurd hsame.symm hdomain
  · intro a ha
    show (unlink m.cells lru a).val.rules.isSome
    rw [unlink_val]
    exact h.rules a (List.mem_append_left _ ha)

theorem evict_domainOf (h : Holds m (addrs ++ [lru])) (a : Addr) :
    domainOf (evict m) a = domainOf m a := by
  rw [evict_cells h]
  exact congrArg Cached.domain (unlink_val m.cells lru a)

/-! ## Insertion and recency -/

/-- No node that is in use gets other contents. -/
theorem insertNew_val {a : Addr} (ha : a ∈ m.live) :
    ((insertNew malloc m domain rules).2.cells a).val = (m.cells a).val := by
  have hne : a ≠ malloc.next m.live := fun hnext => malloc.fresh m.live (hnext ▸ ha)
  refine (linkBehind_val _ _ _ _).trans ?_
  rw [store_of_ne _ _ hne]

theorem insertNew_node : ((insertNew malloc m domain rules).2.cells
    (insertNew malloc m domain rules).1).val = ⟨domain, some rules⟩ := by
  refine (linkBehind_val _ _ _ _).trans ?_
  exact congrArg Node.val (store_self _ _ _)

theorem Holds.mem_live (h : Holds m addrs) {a : Addr} (ha : a ∈ addrs) : a ∈ m.live :=
  h.live.mem_iff.mpr (List.mem_cons_of_mem _ (List.mem_append_left _ ha))

theorem insertNew_holds (h : Holds m addrs) (hnew : m.cacheMap.lookup domain = none)
    (rules : List Rule) :
    Holds (insertNew malloc m domain rules).2 ((insertNew malloc m domain rules).1 :: addrs) := by
  have hfresh : malloc.next m.live ∉ m.head :: (addrs ++ [m.tail]) :=
    fun hmem => malloc.fresh m.live (h.live.mem_iff.mpr hmem)
  have hold : ∀ a ∈ addrs, ((insertNew malloc m domain rules).2.cells a).val = (m.cells a).val :=
    fun a ha => insertNew_val (h.mem_live ha)
  have hnode : ((insertNew malloc m domain rules).2.cells (malloc.next m.live)).val =
      ⟨domain, some rules⟩ := insertNew_node
  constructor
  · refine Chain.linkBehind (h.chain.congr fun x hx => ?_) (by simp) hfresh
    have hne : x ≠ malloc.next m.live := fun hnext => hfresh (hnext ▸ hx)
    rw [store_of_ne _ _ hne]
    exact ⟨rfl, rfl⟩
  · exact ((h.live.cons _).trans (List.Perm.swap _ _ _))
  · show m.currentSize + 1 = _
    rw [h.size]
    rfl
  · intro domain' a
    show (m.cacheMap.insert domain (malloc.next m.live)).lookup domain' = some a ↔
      a ∈ malloc.next m.live :: addrs ∧ _ = domain'
    by_cases hdomain : domain' = domain
    · subst hdomain
      rw [AList.lookup_insert, Option.some_inj]
      constructor
      · rintro rfl
        exact ⟨List.mem_cons_self, congrArg Cached.domain hnode⟩
      · rintro ⟨ha, hsame⟩
        rcases List.mem_cons.mp ha with rfl | ha
        · rfl
        · have hfound := (h.entries domain' a).mpr
            ⟨ha, (congrArg Cached.domain (hold a ha)).symm.trans hsame⟩
          rw [hnew] at hfound
          cases hfound
    · rw [AList.lookup_insert_ne hdomain, h.entries, List.mem_cons]
      constructor
      · rintro ⟨ha, hsame⟩
        exact ⟨Or.inr ha, (congrArg Cached.domain (hold a ha)).trans hsame⟩
      · rintro ⟨rfl | ha, hsame⟩
        · exact absurd (hsame.symm.trans (congrArg Cached.domain hnode)) hdomain
        · exact ⟨ha, (congrArg Cached.domain (hold a ha)).symm.trans hsame⟩
  · intro a ha
    rcases List.mem_cons.mp ha with rfl | ha
    · exact congrArg (fun c => c.rules.isSome) hnode
    · rw [hold a ha]
      exact h.rules a ha

/-- The node of a call comes to the front. -/
theorem move_holds (h : Holds m (ls ++ node :: rs)) :
    Holds { m with cells := linkBehind (unlink m.cells node) m.head node } (node :: (ls ++ rs)) := by
  have hchain := h.chain
  have hlive := h.live
  rw [List.append_assoc, List.cons_append, ← List.cons_append] at hchain hlive
  have hval : ∀ a, (linkBehind (unlink m.cells node) m.head node a).val = (m.cells a).val := by
    intro a
    rw [linkBehind_val, unlink_val]
  have hmem : ∀ a, a ∈ node :: (ls ++ rs) ↔ a ∈ ls ++ node :: rs :=
    fun a => List.perm_middle.symm.mem_iff
  constructor
  · have hskip := hchain.unlink (List.cons_ne_nil _ _) (by simp)
    have hnot := (List.nodup_cons.mp (List.perm_middle.nodup_iff.mp hchain.nodup)).1
    have hfront := hskip.linkBehind (by simp) hnot
    show Chain _ (m.head :: (node :: (ls ++ rs) ++ [m.tail]))
    rw [List.cons_append, List.append_assoc]
    exact hfront
  · have hperm := hlive.trans (List.perm_middle.trans (List.Perm.swap _ _ _))
    show m.live.Perm (m.head :: (node :: (ls ++ rs) ++ [m.tail]))
    rw [List.cons_append, List.append_assoc]
    exact hperm
  · show m.currentSize = _
    rw [h.size, List.length_append, List.length_cons, List.length_cons, List.length_append]
    omega
  · intro domain a
    rw [hmem, show domainOf _ a = domainOf m a from congrArg Cached.domain (hval a)]
    exact h.entries domain a
  · intro a ha
    show (linkBehind (unlink m.cells node) m.head node a).val.rules.isSome
    rw [hval]
    exact h.rules a ((hmem a).mp ha)

/-! ## One call -/

theorem newManager_holds (malloc : Allocator) (capacity : Nat) :
    Holds (newManager malloc capacity) [] := by
  have hne : malloc.next [] ≠ malloc.next [malloc.next []] :=
    fun heq => malloc.fresh [malloc.next []] (List.mem_singleton.mpr heq.symm)
  constructor
  · refine ⟨List.isChain_pair.mpr ⟨?_, ?_⟩, by simpa [newManager] using hne⟩
    · simp [newManager, store, hne]
    · simp [newManager]
  · exact List.Perm.swap _ _ _
  · rfl
  · intro domain a
    constructor
    · intro hfound
      cases hfound
    · intro hmem
      exact absurd hmem.1 List.not_mem_nil
  · intro a ha
    cases ha

theorem map_erase_middle {α β : Type} [DecidableEq β] {f : α → β} {as bs : List α} {x : α}
    (h : ((as ++ x :: bs).map f).Nodup) :
    ((as ++ x :: bs).map f).erase (f x) = (as ++ bs).map f := by
  rw [List.map_append, List.map_cons] at h ⊢
  have hx : f x ∉ as.map f :=
    fun hx => (List.nodup_append.mp h).2.2 (f x) hx (f x) List.mem_cons_self rfl
  rw [List.erase_append_right _ hx, List.erase_cons_head, List.map_append]

theorem Holds.lookup_none (h : Holds m addrs) :
    m.cacheMap.lookup domain = none ↔ domain ∉ addrs.map (domainOf m) := by
  rw [← h.mem_keys, RobotsManager.keys, ← AList.mem_keys, AList.lookup_eq_none]

/-- The manager that a new node comes into. -/
def withRoom (m : RobotsManager) : RobotsManager :=
  if m.capacity ≤ m.currentSize then evict m else m

theorem fetchAndParse_hit (hfound : m.cacheMap.lookup call.domain = some node) :
    fetchAndParse malloc m call = (node, m) := by
  rw [fetchAndParse, hfound]

theorem fetchAndParse_miss (hnone : m.cacheMap.lookup call.domain = none) :
    fetchAndParse malloc m call = insertNew malloc (withRoom m) call.domain
      ((parseGroups call.uninitialized call.body).map Group.rule) := by
  rw [fetchAndParse, hnone]
  rfl

theorem withRoom_holds (h : Holds m addrs) (hpos : 0 < m.capacity)
    (hfits : addrs.length ≤ m.capacity) (hnew : domain ∉ addrs.map (domainOf m)) :
    ∃ addrs', Holds (withRoom m) addrs' ∧
      domain :: addrs'.map (domainOf (withRoom m)) =
        touch m.capacity (addrs.map (domainOf m)) domain := by
  unfold withRoom
  rw [h.size]
  split
  · rename_i hfull
    have hlength : addrs.length = m.capacity := Nat.le_antisymm hfits hfull
    obtain ⟨addrs, lru, rfl⟩ := List.eq_nil_or_concat' addrs |>.resolve_left
      (fun hnil => by simp [hnil] at hlength; omega)
    refine ⟨addrs, evict_holds h, ?_⟩
    rw [touch_full hnew (by rw [List.length_map, hlength]) hpos, List.map_append, List.map_cons,
      List.map_nil, List.dropLast_concat]
    exact congrArg _ (List.map_congr_left fun a _ => evict_domainOf h a)
  · rename_i hroom
    refine ⟨addrs, h, (touch_of_not_mem hnew ?_).symm⟩
    rw [List.length_map]
    omega

/-- What a lookup leaves: the node of the domain, among the others that stay. -/
theorem fetchAndParse_holds (h : Holds m addrs) (hpos : 0 < m.capacity)
    (hfits : addrs.length ≤ m.capacity) (call : Call) :
    ∃ ls rs, Holds (fetchAndParse malloc m call).2
        (ls ++ (fetchAndParse malloc m call).1 :: rs) ∧
      domainOf (fetchAndParse malloc m call).2 (fetchAndParse malloc m call).1 = call.domain ∧
      call.domain :: (ls ++ rs).map (domainOf (fetchAndParse malloc m call).2) =
        touch m.capacity (addrs.map (domainOf m)) call.domain := by
  cases hfound : m.cacheMap.lookup call.domain with
  | some node =>
    rw [fetchAndParse_hit hfound]
    obtain ⟨hmem, hdomain⟩ := (h.entries _ _).mp hfound
    have hmap : domainOf m node ∈ addrs.map (domainOf m) := List.mem_map_of_mem hmem
    obtain ⟨ls, rs, rfl⟩ := List.append_of_mem hmem
    refine ⟨ls, rs, h, hdomain, ?_⟩
    rw [← hdomain, touch_of_mem hmap (by rw [List.length_map]; exact hfits),
      map_erase_middle h.domains_nodup]
  | none =>
    rw [fetchAndParse_miss hfound]
    obtain ⟨addrs', hroom, htouch⟩ :=
      withRoom_holds h hpos hfits (h.lookup_none.mp hfound)
    have hnone : (withRoom m).cacheMap.lookup call.domain = none := by
      have hnodup := touch_nodup h.domains_nodup m.capacity call.domain
      rw [← htouch] at hnodup
      exact hroom.lookup_none.mpr (List.nodup_cons.mp hnodup).1
    refine ⟨[], addrs', insertNew_holds hroom hnone _, congrArg Cached.domain insertNew_node, ?_⟩
    rw [← htouch, List.nil_append]
    exact congrArg _ (List.map_congr_left fun a ha =>
      congrArg Cached.domain (insertNew_val (hroom.mem_live ha)))

theorem checkStatus_holds (h : Holds m addrs) (hpos : 0 < m.capacity)
    (hfits : addrs.length ≤ m.capacity) (call : Call) :
    ∃ addrs', Holds (checkStatus malloc m call).2 addrs' ∧
      addrs'.map (domainOf (checkStatus malloc m call).2) =
        touch m.capacity (addrs.map (domainOf m)) call.domain := by
  obtain ⟨ls, rs, hfetched, hdomain, htouch⟩ :=
    @fetchAndParse_holds malloc m addrs h hpos hfits call
  refine ⟨_, move_holds hfetched, ?_⟩
  have hsame : ∀ a, domainOf (checkStatus malloc m call).2 a =
      domainOf (fetchAndParse malloc m call).2 a := by
    intro a
    refine congrArg Cached.domain ((linkBehind_val _ _ _ _).trans ?_)
    exact unlink_val _ _ _
  have hmap := List.map_congr_left (l := ls ++ rs) fun a _ => hsame a
  exact (congrArg₂ List.cons ((hsame _).trans hdomain) hmap).trans htouch

/-- The call has rules to ask. -/
theorem checkStatus_answers (h : Holds m addrs) (hpos : 0 < m.capacity)
    (hfits : addrs.length ≤ m.capacity) (call : Call) :
    (checkStatus malloc m call).1.isSome := by
  obtain ⟨ls, rs, hfetched, -, -⟩ := @fetchAndParse_holds malloc m addrs h hpos hfits call
  have hrules := hfetched.rules _ (List.mem_append_right ls List.mem_cons_self)
  unfold checkStatus
  simp only [linkBehind_val, unlink_val, Option.isSome_map]
  exact hrules

theorem checkStatus_capacity : (checkStatus malloc m call).2.capacity = m.capacity := by
  cases hfound : m.cacheMap.lookup call.domain with
  | some node => rw [checkStatus, fetchAndParse_hit hfound]
  | none =>
    rw [checkStatus, fetchAndParse_miss hfound]
    show (withRoom m).capacity = m.capacity
    unfold withRoom
    split <;> rfl

/-! ## Runs -/

theorem run_holds (malloc : Allocator) {capacity : Nat} (hpos : 0 < capacity) (calls : List Call) :
    (run malloc capacity calls).capacity = capacity ∧
      ∃ addrs, Holds (run malloc capacity calls) addrs ∧
        addrs.map (domainOf (run malloc capacity calls)) =
          (calls.map Call.domain).foldl (touch capacity) [] := by
  induction calls using List.reverseRecOn with
  | nil => exact ⟨rfl, [], newManager_holds malloc capacity, rfl⟩
  | append_singleton calls call ih =>
    obtain ⟨hcapacity, addrs, h, hdomains⟩ := ih
    have hstep : run malloc capacity (calls ++ [call]) =
        (checkStatus malloc (run malloc capacity calls) call).2 := by
      rw [run, List.foldl_append]
      rfl
    have hfits : addrs.length ≤ (run malloc capacity calls).capacity := by
      rw [hcapacity, ← List.length_map (f := domainOf (run malloc capacity calls)), hdomains,
        foldl_touch, List.length_take]
      exact Nat.min_le_left _ _
    obtain ⟨addrs', hnext, htouch⟩ :=
      @checkStatus_holds malloc _ addrs h (hcapacity.symm ▸ hpos) hfits call
    rw [hstep]
    refine ⟨checkStatus_capacity.trans hcapacity, addrs', hnext, ?_⟩
    rw [htouch, hcapacity, hdomains, List.map_append, List.foldl_append]
    rfl

/-- After each call: the last domains in order of recency, and the map has the same. -/
theorem cache_is_lru (malloc : Allocator) {capacity : Nat} (hpos : 0 < capacity)
    (calls : List Call) :
    let m := run malloc capacity calls
    m.domains = (recent (calls.map Call.domain)).take capacity ∧
      m.domains.Nodup ∧ m.keys.Nodup ∧ (∀ domain, domain ∈ m.keys ↔ domain ∈ m.domains) ∧
      m.domains.length = min capacity (calls.map Call.domain).dedup.length := by
  intro m
  obtain ⟨-, addrs, h, hdomains⟩ := run_holds malloc hpos calls
  rw [foldl_touch] at hdomains
  have hlist : m.domains = addrs.map (domainOf m) := h.domains_eq
  refine ⟨hlist.trans hdomains, hlist ▸ h.domains_nodup, m.cacheMap.nodupKeys, ?_, ?_⟩
  · intro domain
    rw [hlist]
    exact h.mem_keys
  · rw [hlist, hdomains, List.length_take, recent, List.length_reverse]

theorem le_foldr_max {a : Nat} {live : List Nat} (h : a ∈ live) : a ≤ live.foldr max 0 := by
  induction live with
  | nil => cases h
  | cons b live ih =>
    rcases List.mem_cons.mp h with rfl | h
    · exact Nat.le_max_left _ _
    · exact (ih h).trans (Nat.le_max_right _ _)

/-- The address after the highest one in use. -/
def afterAll : Allocator where
  next live := live.foldr max 0 + 1
  fresh _ hmem := absurd (le_foldr_max hmem) (Nat.not_succ_le_self _)
  not_null _ := Nat.succ_ne_zero _

/-- Of two domains and room for one the second stays. -/
theorem second_domain_stays :
    (run afterAll 1 [⟨[97], [], [], .invalid⟩, ⟨[98], [], [], .invalid⟩]).domains = [[98]] :=
  (cache_is_lru afterAll (Nat.zero_lt_one) _).1.trans (by decide)

end seamus.robots_cache
