/-
The places of a tree.

A node is what it says itself, its label, and the nodes inside of it, each of
which has a place there: the operand of a sign, the second argument of a call,
the branch of the third condition. Label and places account for a node
completely, which is the measure of every list of its parts, and the places
have an order of their own, in which their nodes are written in the source.

A node anywhere in a tree has an address, the places on the way down to it. It
is addresses that tell apart what is the same twice: two names that are
spelled alike are one node, but they stand at two addresses. Ordered like
words, with the order of places for that of letters, an address comes before
those below it and those come before the next one beside it.
-/
import Mathlib.Data.List.Basic
import ShiftReduce.Tree.Node

namespace ShiftReduce

-- ================================================================= labels

/-- What a node says itself, without the nodes inside of it. -/
inductive Label where
  | program
  | block
  | list
  | varDecl (name type : String)
  | constDecl (name type : String)
  | funcDecl (name : String) (params : List Param) (returnType : String)
  | param (param : Param)
  | assign (target : String)
  | binary (op : String)
  | unary (op : String)
  | call
  | literal (literal : Literal)
  | identifier (name : String)
  | ifElse
  | whileLoop
  | forLoop

/-- The parameters in a label: all of those that a function declares, and one
that stands by itself. -/
def Label.params : Label → List Param
  | funcDecl _ params _ => params
  | param p => [p]
  | _ => []

namespace Node

def label : Node → Label
  | program _ => .program
  | block _ => .block
  | list _ => .list
  | varDecl name type _ => .varDecl name type
  | constDecl name type _ => .constDecl name type
  | funcDecl name params returnType _ => .funcDecl name params returnType
  | param p => .param p
  | assign target _ => .assign target
  | binary _ op _ => .binary op
  | unary op _ => .unary op
  | call _ _ => .call
  | literal l => .literal l
  | identifier name => .identifier name
  | ifElse _ _ _ _ => .ifElse
  | whileLoop _ _ => .whileLoop
  | forLoop _ _ _ _ => .forLoop

theorem params_label (node : Node) : node.label.params = node.params := by
  cases node <;> rfl

end Node

-- ================================================================= places

/-- Where a node stands directly inside of another. -/
inductive Place where
  | item (n : Nat)
  | init
  | value
  | left
  | right
  | operand
  | callee
  | argument (n : Nat)
  | condition
  | update
  | thenBranch
  | elifCondition (n : Nat)
  | elifBranch (n : Nat)
  | elseBranch
  | body

namespace Place

/-- The rank of a place in its node, and its number among those of this
rank. -/
def rank : Place → Nat × Nat
  | item n => (0, n)
  | init => (0, 0)
  | value => (0, 0)
  | left => (0, 0)
  | right => (1, 0)
  | operand => (0, 0)
  | callee => (0, 0)
  | argument n => (1, n)
  | condition => (1, 0)
  | update => (2, 0)
  | thenBranch => (2, 0)
  | elifCondition n => (3, 2 * n)
  | elifBranch n => (3, 2 * n + 1)
  | elseBranch => (4, 0)
  | body => (5, 0)

/-- One place of a node comes before another in the source. -/
def Before (p q : Place) : Prop :=
  p.rank.1 < q.rank.1 ∨ p.rank.1 = q.rank.1 ∧ p.rank.2 < q.rank.2

theorem not_before_self (p : Place) : ¬ p.Before p := by
  unfold Before
  omega

end Place

namespace Node

/-- The node at a place of a node, if the place is taken. -/
def part? : Node → Place → Option Node
  | program items, .item n => items[n]?
  | block items, .item n => items[n]?
  | list items, .item n => items[n]?
  | varDecl _ _ init, .init => init
  | constDecl _ _ value, .value => some value
  | funcDecl _ _ _ body, .body => some body
  | assign _ value, .value => some value
  | binary left _ _, .left => some left
  | binary _ _ right, .right => some right
  | unary _ operand, .operand => some operand
  | call callee _, .callee => some callee
  | call _ args, .argument n => args[n]?
  | ifElse condition _ _ _, .condition => some condition
  | ifElse _ thenBranch _ _, .thenBranch => some thenBranch
  | ifElse _ _ elifs _, .elifCondition n => elifs[n]?.map Prod.fst
  | ifElse _ _ elifs _, .elifBranch n => elifs[n]?.map Prod.snd
  | ifElse _ _ _ elseBranch, .elseBranch => elseBranch
  | whileLoop condition _, .condition => some condition
  | whileLoop _ body, .body => some body
  | forLoop init _ _ _, .init => init
  | forLoop _ condition _ _, .condition => condition
  | forLoop _ _ update _, .update => update
  | forLoop _ _ _ body, .body => some body
  | _, _ => none

private theorem option_pair_ext {α β : Type} {o p : Option (α × β)}
    (hfst : o.map Prod.fst = p.map Prod.fst)
    (hsnd : o.map Prod.snd = p.map Prod.snd) : o = p := by
  cases o <;> cases p <;> simp_all [Prod.ext_iff]

/-- Nodes with the same label and the same nodes at all places are the same:
no part of a node is without a place. -/
theorem eq_of_label_of_part? {a b : Node} (hlabel : a.label = b.label)
    (hparts : ∀ place, a.part? place = b.part? place) : a = b := by
  cases a <;> cases b <;> cases hlabel
  case program =>
    exact congrArg program (List.ext_getElem? fun n => hparts (.item n))
  case block =>
    exact congrArg block (List.ext_getElem? fun n => hparts (.item n))
  case list =>
    exact congrArg list (List.ext_getElem? fun n => hparts (.item n))
  case varDecl =>
    cases hparts .init
    rfl
  case constDecl =>
    cases hparts .value
    rfl
  case funcDecl =>
    cases hparts .body
    rfl
  case param => rfl
  case assign =>
    cases hparts .value
    rfl
  case binary =>
    cases hparts .left
    cases hparts .right
    rfl
  case unary =>
    cases hparts .operand
    rfl
  case call callee args callee' args' =>
    cases hparts .callee
    exact congrArg (call callee)
      (List.ext_getElem? fun n => hparts (.argument n))
  case literal => rfl
  case identifier => rfl
  case ifElse condition thenBranch elifs elseBranch condition' thenBranch'
      elifs' elseBranch' =>
    cases hparts .condition
    cases hparts .thenBranch
    cases hparts .elseBranch
    have helifs : elifs = elifs' := List.ext_getElem? fun n =>
      option_pair_ext (hparts (.elifCondition n)) (hparts (.elifBranch n))
    rw [helifs]
  case whileLoop =>
    cases hparts .condition
    cases hparts .body
    rfl
  case forLoop =>
    cases hparts .init
    cases hparts .condition
    cases hparts .update
    cases hparts .body
    rfl

-- ==================================================== the places in order

/-- The places that are taken in a node, in the order of the source. -/
def places : Node → List Place
  | program items => (List.range items.length).map .item
  | block items => (List.range items.length).map .item
  | list items => (List.range items.length).map .item
  | varDecl _ _ init => (init.map fun _ => .init).toList
  | constDecl _ _ _ => [.value]
  | funcDecl _ _ _ _ => [.body]
  | param _ => []
  | assign _ _ => [.value]
  | binary _ _ _ => [.left, .right]
  | unary _ _ => [.operand]
  | call _ args => .callee :: (List.range args.length).map .argument
  | literal _ => []
  | identifier _ => []
  | ifElse _ _ elifs elseBranch =>
    .condition :: .thenBranch
      :: (List.range elifs.length).flatMap
        (fun n => [.elifCondition n, .elifBranch n])
      ++ (elseBranch.map fun _ => .elseBranch).toList
  | whileLoop _ _ => [.condition, .body]
  | forLoop init condition update _ =>
    (init.map fun _ => .init).toList
      ++ (condition.map fun _ => .condition).toList
      ++ (update.map fun _ => .update).toList ++ [.body]

private theorem exists_of_mem_optional {o : Option Node} {p place : Place}
    (h : place ∈ (o.map fun _ => p).toList) :
    place = p ∧ ∃ part, o = some part := by
  cases o with
  | none => cases h
  | some part => exact ⟨List.mem_singleton.mp h, part, rfl⟩

private theorem mem_optional {o : Option Node} {p : Place} {part : Node}
    (h : o = some part) : p ∈ (o.map fun _ => p).toList := by
  rw [h]
  exact List.mem_singleton.mpr rfl

private theorem exists_of_mem_numbered {n : Nat} {f : Nat → Place}
    {place : Place} (h : place ∈ (List.range n).map f) :
    ∃ i < n, place = f i := by
  obtain ⟨i, hi, rfl⟩ := List.mem_map.mp h
  exact ⟨i, List.mem_range.mp hi, rfl⟩

private theorem mem_numbered {α : Type} {l : List α} {f : Nat → Place}
    {i : Nat} {a : α} (h : l[i]? = some a) :
    f i ∈ (List.range l.length).map f :=
  List.mem_map_of_mem
    (List.mem_range.mpr (List.getElem?_eq_some_iff.mp h).1)

private theorem mem_elif {elifs : List (Node × Node)} {n : Nat} {part : Node}
    {f : Node × Node → Node} {place : Place}
    (hplace : place ∈ [Place.elifCondition n, .elifBranch n])
    (h : elifs[n]?.map f = some part) :
    place ∈ (List.range elifs.length).flatMap
      fun n => [Place.elifCondition n, .elifBranch n] := by
  obtain ⟨elif, helif, -⟩ := Option.map_eq_some_iff.mp h
  have hn := (List.getElem?_eq_some_iff.mp helif).1
  exact List.mem_flatMap.mpr ⟨n, List.mem_range.mpr hn, hplace⟩

/-- At every place of a node there is a part. -/
theorem exists_part?_of_mem_places {node : Node} {place : Place}
    (h : place ∈ node.places) : ∃ part, node.part? place = some part := by
  cases node with
  | program items | block items | list items =>
      obtain ⟨n, hn, rfl⟩ := exists_of_mem_numbered h
      exact ⟨items[n], List.getElem?_eq_getElem hn⟩
  | varDecl name type init =>
      obtain ⟨rfl, part, rfl⟩ := exists_of_mem_optional h
      exact ⟨part, rfl⟩
  | constDecl _ _ part | funcDecl _ _ _ part | assign _ part | unary _ part =>
      cases List.mem_singleton.mp h
      exact ⟨part, rfl⟩
  | param | literal | identifier => cases h
  | binary first _ second | whileLoop first second =>
      rcases List.mem_pair.mp h with rfl | rfl
      · exact ⟨first, rfl⟩
      · exact ⟨second, rfl⟩
  | call callee args =>
      rcases List.mem_cons.mp h with rfl | h
      · exact ⟨callee, rfl⟩
      · obtain ⟨n, hn, rfl⟩ := exists_of_mem_numbered h
        exact ⟨args[n], List.getElem?_eq_getElem hn⟩
  | ifElse condition thenBranch elifs elseBranch =>
      rcases List.mem_append.mp h with h | h
      · rcases List.mem_cons.mp h with rfl | h
        · exact ⟨condition, rfl⟩
        rcases List.mem_cons.mp h with rfl | h
        · exact ⟨thenBranch, rfl⟩
        obtain ⟨n, hn, h⟩ := List.mem_flatMap.mp h
        have helif := List.getElem?_eq_getElem (List.mem_range.mp hn)
        rcases List.mem_pair.mp h with rfl | rfl
        · exact ⟨_, congrArg (Option.map Prod.fst) helif⟩
        · exact ⟨_, congrArg (Option.map Prod.snd) helif⟩
      · obtain ⟨rfl, part, rfl⟩ := exists_of_mem_optional h
        exact ⟨part, rfl⟩
  | forLoop init condition update body =>
      rcases List.mem_append.mp h with h | h
      · rcases List.mem_append.mp h with h | h
        · rcases List.mem_append.mp h with h | h
          all_goals
            obtain ⟨rfl, part, rfl⟩ := exists_of_mem_optional h
            exact ⟨part, rfl⟩
        · obtain ⟨rfl, part, rfl⟩ := exists_of_mem_optional h
          exact ⟨part, rfl⟩
      · cases List.mem_singleton.mp h
        exact ⟨body, rfl⟩

/-- And where there is a part, there is a place of the node. -/
theorem mem_places_of_part? {node part : Node} {place : Place}
    (h : node.part? place = some part) : place ∈ node.places := by
  cases node with
  | program items | block items | list items =>
      cases place with
      | item n => exact mem_numbered h
      | _ => cases h
  | varDecl name type init =>
      cases place with
      | init => exact mem_optional h
      | _ => cases h
  | constDecl | assign =>
      cases place with
      | value => exact List.mem_singleton.mpr rfl
      | _ => cases h
  | funcDecl =>
      cases place with
      | body => exact List.mem_singleton.mpr rfl
      | _ => cases h
  | unary =>
      cases place with
      | operand => exact List.mem_singleton.mpr rfl
      | _ => cases h
  | param | literal | identifier => cases h
  | binary =>
      cases place with
      | left => exact List.mem_cons_self
      | right => exact List.mem_cons_of_mem _ List.mem_cons_self
      | _ => cases h
  | whileLoop =>
      cases place with
      | condition => exact List.mem_cons_self
      | body => exact List.mem_cons_of_mem _ List.mem_cons_self
      | _ => cases h
  | call callee args =>
      cases place with
      | callee => exact List.mem_cons_self
      | argument n => exact List.mem_cons_of_mem _ (mem_numbered h)
      | _ => cases h
  | ifElse condition thenBranch elifs elseBranch =>
      cases place with
      | condition => exact List.mem_cons_self
      | thenBranch => exact List.mem_cons_of_mem _ List.mem_cons_self
      | elifCondition n =>
          refine List.mem_append_left _ ?_
          refine List.mem_cons_of_mem _ (List.mem_cons_of_mem _ ?_)
          exact mem_elif List.mem_cons_self h
      | elifBranch n =>
          refine List.mem_append_left _ ?_
          refine List.mem_cons_of_mem _ (List.mem_cons_of_mem _ ?_)
          exact mem_elif (List.mem_cons_of_mem _ List.mem_cons_self) h
      | elseBranch => exact List.mem_append_right _ (mem_optional h)
      | _ => cases h
  | forLoop init condition update body =>
      cases place with
      | init =>
          refine List.mem_append_left _ (List.mem_append_left _ ?_)
          exact List.mem_append_left _ (mem_optional h)
      | condition =>
          refine List.mem_append_left _ (List.mem_append_left _ ?_)
          exact List.mem_append_right _ (mem_optional h)
      | update =>
          exact List.mem_append_left _
            (List.mem_append_right _ (mem_optional h))
      | body => exact List.mem_append_right _ (List.mem_singleton.mpr rfl)
      | _ => cases h

/-- The places of a node are those with a part. -/
theorem mem_places_iff {node : Node} {place : Place} :
    place ∈ node.places ↔ ∃ part, node.part? place = some part :=
  ⟨exists_part?_of_mem_places, fun ⟨_, h⟩ => mem_places_of_part? h⟩

private theorem pairwise_range_map {n : Nat} {f : Nat → Place}
    (h : ∀ i j, i < j → (f i).Before (f j)) :
    ((List.range n).map f).Pairwise Place.Before :=
  List.pairwise_map.mpr (List.pairwise_lt_range.imp fun {i j} hij => h i j hij)

private theorem pairwise_elifs (n : Nat) :
    ((List.range n).flatMap fun n => [Place.elifCondition n,
      .elifBranch n]).Pairwise
      Place.Before := by
  refine List.pairwise_flatMap.mpr ⟨fun n _ => ?_,
    List.pairwise_lt_range.imp ?_⟩
  · simp [Place.Before, Place.rank]
  · intro i j hij p hp q hq
    have hlt : p.rank.2 < q.rank.2 ∧ p.rank.1 = q.rank.1 := by
      rcases List.mem_pair.mp hp with rfl | rfl <;>
        rcases List.mem_pair.mp hq with rfl | rfl <;>
        simp [Place.rank] <;> omega
    exact Or.inr ⟨hlt.2, hlt.1⟩

theorem pairwise_places (node : Node) : node.places.Pairwise Place.Before := by
  cases node with
  | program items | block items | list items =>
      exact pairwise_range_map fun i j hij => Or.inr ⟨rfl, hij⟩
  | varDecl name type init => cases init <;> simp [places]
  | constDecl | funcDecl | param | assign | unary | literal | identifier =>
      simp [places]
  | binary | whileLoop => simp [places, Place.Before, Place.rank]
  | call callee args =>
      refine List.pairwise_cons.mpr ⟨?_,
        pairwise_range_map fun i j hij => Or.inr ⟨rfl, hij⟩⟩
      intro place hplace
      obtain ⟨n, -, rfl⟩ := List.mem_map.mp hplace
      exact Or.inl Nat.zero_lt_one
  | forLoop init condition update body =>
      cases init <;> cases condition <;> cases update <;>
        simp [places, Place.Before, Place.rank]
  | ifElse condition thenBranch elifs elseBranch =>
      have helse : (elseBranch.map fun _ => Place.elseBranch).toList.Pairwise
          Place.Before := by
        cases elseBranch <;> simp
      have := pairwise_elifs elifs.length
      simp only [places, List.cons_append, List.pairwise_cons,
        List.pairwise_append]
      refine ⟨?_, ?_, this, helse, ?_⟩ <;>
        simp +contextual [Place.Before, Place.rank, or_imp]

private theorem flatMap_range_length {α β : Type} (l : List α)
    (f : Option α → List β) :
    (List.range l.length).flatMap (fun n => f l[n]?) = l.flatMap fun a =>
      f (some a) := by
  induction l with
  | nil => rfl
  | cons a l ih => simp [List.range_succ_eq_map, List.flatMap_map, ih]

private theorem filterMap_range_length (items : List Node) :
    (List.range items.length).filterMap (fun n => items[n]?) = items := by
  rw [List.filterMap_eq_flatMap_toList,
    flatMap_range_length items Option.toList]
  simp

/-- The children of a node are its parts, in the order of their places. -/
theorem filterMap_part?_places (node : Node) :
    node.places.filterMap node.part? = node.children := by
  cases node with
  | varDecl name type init => cases init <;> rfl
  | forLoop init condition update body =>
      cases init <;> cases condition <;> cases update <;> rfl
  | constDecl | funcDecl | param | assign | binary | unary => rfl
  | literal | identifier | whileLoop => rfl
  | program items | block items | list items =>
      exact List.filterMap_map.trans (filterMap_range_length items)
  | call callee args =>
      exact congrArg (callee :: ·)
        (List.filterMap_map.trans (filterMap_range_length args))
  | ifElse condition thenBranch elifs elseBranch =>
      have helifs : ((List.range elifs.length).flatMap fun n =>
            [Place.elifCondition n, .elifBranch n]).filterMap
              (ifElse condition thenBranch elifs elseBranch).part?
          = elifs.flatMap fun elif => [elif.1, elif.2] := by
        simp only [List.filterMap_eq_flatMap_toList, List.flatMap_assoc,
          List.flatMap_cons, List.flatMap_nil, part?]
        exact flatMap_range_length elifs
          fun elif => (elif.map Prod.fst).toList
            ++ ((elif.map Prod.snd).toList ++ [])
      have helse : (elseBranch.map fun _ => Place.elseBranch).toList.filterMap
            (ifElse condition thenBranch elifs elseBranch).part?
          = elseBranch.toList := by
        cases elseBranch <;> rfl
      rw [places, List.filterMap_append, helse]
      exact congrArg (condition :: thenBranch :: · ++ elseBranch.toList) helifs

-- ============================================================== addresses

/-- The node at an address in a tree, if there is one: the tree itself at the
empty one, and at every other what is at the rest of it in the part that it
starts with. -/
def at? (node : Node) : List Place → Option Node
  | [] => some node
  | place :: address => (node.part? place).bind fun part => part.at? address

theorem mem_children_of_part? {node part : Node} {place : Place}
    (h : node.part? place = some part) : part ∈ node.children := by
  rw [← filterMap_part?_places]
  exact List.mem_filterMap.mpr ⟨place, mem_places_iff.mpr ⟨part, h⟩, h⟩

/-- The addresses of the nodes of a tree, each before those below it and
those before the ones at the next place. -/
def addresses (node : Node) : List (List Place) :=
  [] :: node.places.flatMap fun place =>
    match _hpart : node.part? place with
    | none => []
    | some part => part.addresses.map (place :: ·)
termination_by sizeOf node
decreasing_by exact sizeOf_lt_of_mem_children (mem_children_of_part? _hpart)

theorem addresses_eq (node : Node) :
    node.addresses = [] :: node.places.flatMap fun place =>
      (node.part? place).toList.flatMap fun part =>
        part.addresses.map (place :: ·) := by
  rw [addresses]
  refine congrArg ([] :: ·) (List.flatMap_congr fun place _ => ?_)
  split <;> simp [*]

/-- What is listed below a node at one of its places. -/
theorem mem_below_iff {node : Node} {place : Place} {address : List Place} :
    address ∈ (node.part? place).toList.flatMap (fun part =>
      part.addresses.map (place :: ·)) ↔
      ∃ part, node.part? place = some part
        ∧ ∃ rest ∈ part.addresses, place :: rest = address := by
  simp [Option.mem_toList]

/-- The addresses of a tree are those at which there is a node. -/
theorem mem_addresses_iff {node : Node} {address : List Place} :
    address ∈ node.addresses ↔ ∃ part, node.at? address = some part := by
  induction address generalizing node with
  | nil =>
      rw [addresses_eq]
      simp [at?]
  | cons place address ih =>
      have hbelow : place :: address ∈ node.addresses ↔
          ∃ part, node.part? place = some part ∧ address ∈ part.addresses := by
        rw [addresses_eq, List.mem_cons, List.mem_flatMap]
        constructor
        · intro h
          rcases h with h | ⟨place', -, h⟩
          · cases h
          · obtain ⟨part, hpart, rest, hrest, h⟩ := mem_below_iff.mp h
            cases h
            exact ⟨part, hpart, hrest⟩
        · intro h
          obtain ⟨part, hpart, haddress⟩ := h
          refine Or.inr ⟨place, mem_places_iff.mpr ⟨part, hpart⟩, ?_⟩
          exact mem_below_iff.mpr ⟨part, hpart, address, haddress, rfl⟩
      rw [hbelow]
      simp only [ih, at?, Option.bind_eq_some_iff]
      exact ⟨fun ⟨part, hpart, found, hfound⟩ => ⟨found, part, hpart, hfound⟩,
        fun ⟨found, part, hpart, hfound⟩ => ⟨part, hpart, found, hfound⟩⟩

/-- Addresses are listed in the order of words. -/
theorem pairwise_addresses (node : Node) :
    node.addresses.Pairwise (List.Lex Place.Before) := by
  induction node using addresses.induct with
  | case1 node ih =>
      rw [addresses_eq]
      refine List.pairwise_cons.mpr ⟨?_, List.pairwise_flatMap.mpr ⟨?_, ?_⟩⟩
      · intro address haddress
        obtain ⟨place, -, h⟩ := List.mem_flatMap.mp haddress
        obtain ⟨part, -, rest, -, rfl⟩ := mem_below_iff.mp h
        exact List.Lex.nil
      · intro place _
        cases hpart : node.part? place with
        | none => simp
        | some part =>
            simp only [Option.toList_some, List.flatMap_cons,
              List.flatMap_nil, List.append_nil]
            exact List.pairwise_map.mpr
              ((ih place part hpart).imp fun h => List.Lex.cons h)
      · refine node.pairwise_places.imp fun {p q} hpq a ha b hb => ?_
        obtain ⟨part, -, rest, -, rfl⟩ := mem_below_iff.mp ha
        obtain ⟨part', -, rest', -, rfl⟩ := mem_below_iff.mp hb
        exact List.Lex.rel hpq

/-- No address is listed twice. -/
theorem nodup_addresses (node : Node) : node.addresses.Nodup := by
  refine node.pairwise_addresses.imp fun {a b} hlex heq => ?_
  subst heq
  exact List.lex_irrefl Place.not_before_self a hlex

/-- In the order of their addresses come a node itself and then, child by
child, what is at the addresses of its children. -/
theorem filterMap_at?_addresses (node : Node) :
    node.addresses.filterMap node.at?
      = node :: node.children.flatMap fun child =>
        child.addresses.filterMap child.at? := by
  have hbelow : ∀ place, ((node.part? place).toList.flatMap
        fun part => part.addresses.map (place :: ·)).filterMap node.at?
      = (node.part? place).toList.flatMap fun part =>
        part.addresses.filterMap part.at? := by
    intro place
    cases hpart : node.part? place with
    | none => rfl
    | some part => simp [List.filterMap_map, Function.comp_def, at?, hpart]
  calc node.addresses.filterMap node.at?
      = node :: node.places.flatMap fun place =>
          (node.part? place).toList.flatMap fun part =>
            part.addresses.filterMap part.at? := by
        rw [addresses_eq]
        show node :: List.filterMap node.at? _ = _
        rw [List.filterMap_flatMap]
        simp only [hbelow]
    _ = node :: node.children.flatMap fun child =>
        child.addresses.filterMap child.at? := by
        rw [← filterMap_part?_places, List.filterMap_eq_flatMap_toList,
          List.flatMap_assoc]

end Node

end ShiftReduce
