import RegionFlow.Proofs.Flow.Navigation
set_option autoImplicit false

/-!
A scope with elements shares the entry of its first element, so several operations may have one
entry; but each point before an operation belongs to exactly one of them, the last on the way
through first elements of scope bodies.
-/

namespace RegionFlow

variable {d : Dialect}

namespace PlacedOp

/-- The point that belongs to an operation: the one before it, or, for a scope without elements, the
one after its body.  A scope with elements has none. -/
def own? (o : PlacedOp d) : Option Point :=
  match o.op with
  | .scope _ [] => some (.exit (o.path.enter .body))
  | .scope _ (_ :: _) => none
  | _ => some (.entry o.path)

/-- One operation is reached from another by entering scope bodies only, each at its first
element. -/
inductive LeadsTo (a : PlacedOp d) : PlacedOp d → Prop where
  | here : LeadsTo a a
  | first {path : OpPath} {g : d.hasScopes = true} {o : Op d} {rest : List (Op d)}
      (h : LeadsTo a ⟨path, .scope g (o :: rest)⟩) : LeadsTo a ⟨⟨path.enter .body, 0⟩, o⟩

namespace LeadsTo

variable {a b c : PlacedOp d}

theorem trans (hab : a.LeadsTo b) (hbc : b.LeadsTo c) : a.LeadsTo c := by
  induction hbc with
  | here => exact hab
  | first _ ih => exact ih.first

theorem entry_eq (h : a.LeadsTo b) : a.entry = b.entry := by
  induction h with
  | here => rfl
  | first _ ih => exact ih

theorem inv (h : a.LeadsTo b) : a = b ∨ ∃ (path : OpPath) (g : d.hasScopes = true)
    (rest : List (Op d)), a.LeadsTo ⟨path, .scope g (b.op :: rest)⟩ ∧
      b.path = ⟨path.enter .body, 0⟩ := by
  cases h with
  | here => exact .inl rfl
  | first h => exact .inr ⟨_, _, _, h, rfl⟩

end LeadsTo

theorem entry_of_own? {o : PlacedOp d} {q : Point} (h : o.own? = some q) : o.entry = q := by
  obtain ⟨path, op⟩ := o
  cases op with
  | scope g b => cases b <;> simp [own?] at h; exact h
  | _ => exact Option.some.inj h

theorem own?_eq_exit_iff {o : PlacedOp d} {s : SequencePath} :
    o.own? = some (.exit s) ↔ (∃ g, o.op = .scope g []) ∧ s = o.path.enter .body := by
  obtain ⟨path, op⟩ := o
  cases op with
  | scope g b => cases b <;> simp [own?, g, eq_comm]
  | _ => simp [own?]

theorem path_eq_of_own? {a b : PlacedOp d} {q : Point} (ha : a.own? = some q)
    (hb : b.own? = some q) : a.path = b.path := by
  cases q with
  | entry path =>
    have entry : ∀ o : PlacedOp d, o.own? = some (.entry path) → o.path = path := by
      rintro ⟨path', op⟩ ho
      cases op with
      | scope g s => cases s <;> simp [own?] at ho
      | _ => simpa [own?] using ho
    rw [entry a ha, entry b hb]
  | exit s =>
    have hs := (own?_eq_exit_iff.mp ha).2
    rw [(own?_eq_exit_iff.mp hb).2, OpPath.enter_inj] at hs
    exact hs.1.symm

end PlacedOp

/-- The entry of an operation belongs to an operation in its tree, to which it leads. -/
theorem exists_owner (o : Op d) : ∀ (c : Context d) (i : Nat), ∃ m ∈ preorderOf c i o,
    (⟨⟨c.path, i⟩, o⟩ : PlacedOp d).LeadsTo m.placed ∧
      m.placed.own? = some (entryOf ⟨c.path, i⟩ o) := by
  induction o using Op.region_induction with
  | step o ih =>
    intro c i
    have hself : (⟨c, i, o⟩ : Located d) ∈ preorderOf c i o := mem_preorderOf.mpr (.inl rfl)
    cases o with
    | scope g b =>
      cases b with
      | nil => exact ⟨_, hself, .here, rfl⟩
      | cons e rest =>
        have hp := Op.body_mem_regions g (e :: rest)
        obtain ⟨m, hm, hlead, hown⟩ :=
          ih _ hp e List.mem_cons_self (c.descend i .body (e :: rest)) 0
        refine ⟨m, ?_, PlacedOp.LeadsTo.trans (.first .here) hlead, hown⟩
        exact mem_preorderOf.mpr (.inr ⟨_, hp, Context.mem_preorder.mpr ⟨0, e, rfl, hm⟩⟩)
    | _ => exact ⟨_, hself, .here, rfl⟩

theorem Context.mem_preorder_trans {c : Context d} {l m : Located d} (hl : l ∈ c.preorder)
    (hm : m ∈ preorderOf l.context l.index l.op) : m ∈ c.preorder := by
  rw [mem_preorder_iff] at hl
  have hm := mem_preorder_iff.mp (mem_preorder.mpr ⟨l.index, l.op, hl.2, hm⟩)
  exact mem_preorder_iff.mpr ⟨hl.1.trans hm.1, hm.2⟩

namespace Program

variable {p : Program d} {h : Home} {l m : Located d}

theorem exists_owner_of_mem (hl : l ∈ p.operations h) : ∃ m ∈ p.operations h,
    l.placed.LeadsTo m.placed ∧ m.placed.own? = some l.entry := by
  obtain ⟨m, hm, hlead, hown⟩ := exists_owner l.op l.context l.index
  rw [operations_eq] at hl ⊢
  exact ⟨m, Context.mem_preorder_trans hl hm, hlead, hown⟩

theorem eq_of_own? {q : Point} (hl : l ∈ p.operations h) (hm : m ∈ p.operations h)
    (hlq : l.placed.own? = some q) (hmq : m.placed.own? = some q) : l = m :=
  eq_of_path hl hm (PlacedOp.path_eq_of_own? hlq hmq)

theorem exists_located_of_leadsTo {o : PlacedOp d} (hl : l ∈ p.operations h)
    (ho : l.placed.LeadsTo o) : ∃ m ∈ p.operations h, m.placed = o := by
  induction ho with
  | here => exact ⟨l, hl, rfl⟩
  | @first path g o rest _ ih =>
    obtain ⟨⟨c, i, e⟩, hm, heq⟩ := ih
    simp only [Located.placed, PlacedOp.mk.injEq] at heq
    obtain ⟨rfl, rfl⟩ := heq
    refine ⟨⟨c.descend i .body (o :: rest), 0, o⟩, ?_, rfl⟩
    rw [mem_operations] at hm ⊢
    exact ⟨hm.1.region hm.2 (Op.body_mem_regions g _), rfl⟩

/-- The ways into one operation are comparable: a scope body has one owner, so the shorter way is
the end of the longer. -/
theorem leadsTo_total {o : PlacedOp d} (hl : l ∈ p.operations h) (hm : m ∈ p.operations h)
    (hlo : l.placed.LeadsTo o) (hmo : m.placed.LeadsTo o) :
    l.placed.LeadsTo m.placed ∨ m.placed.LeadsTo l.placed := by
  induction hlo with
  | here => exact .inr hmo
  | @first path g o rest hlo ih =>
    rcases hmo.inv with heq | ⟨path', g', rest', hmo', hpath⟩
    · rw [heq]
      exact .inl hlo.first
    · obtain ⟨a, ha, haeq⟩ := exists_located_of_leadsTo hl hlo
      obtain ⟨b, hb, hbeq⟩ := exists_located_of_leadsTo hm hmo'
      simp only [OpPath.mk.injEq, OpPath.enter_inj, and_true] at hpath
      have hab : a = b := eq_of_path ha hb (by rw [haeq, hbeq, hpath])
      rw [← haeq, hab, hbeq] at ih
      exact ih hmo'

theorem entry_eq_entry_iff (hl : l ∈ p.operations h) (hm : m ∈ p.operations h) :
    l.entry = m.entry ↔ l.placed.LeadsTo m.placed ∨ m.placed.LeadsTo l.placed := by
  constructor
  · intro heq
    obtain ⟨a, ha, hla, hown⟩ := exists_owner_of_mem hl
    obtain ⟨b, hb, hmb, hown'⟩ := exists_owner_of_mem hm
    rw [← heq] at hown'
    rw [← eq_of_own? ha hb hown hown'] at hmb
    exact leadsTo_total hl hm hla hmb
  · rintro (hlm | hml)
    · exact hlm.entry_eq
    · exact hml.entry_eq.symm

end Program

namespace Context

variable {base c : Context d}

theorem point_owned {post : List (Located d)}
    (hexit : c.exit = base.exit ∨ ∃ m ∈ post, m.placed.own? = some c.exit) (i : Nat) :
    c.point i = base.exit ∨
      ∃ m ∈ preorderFrom c i (c.ops.drop i) ++ post, m.placed.own? = some (c.point i) := by
  cases ho : c.ops[i]? with
  | none =>
    rw [point_of_none ho]
    rcases hexit with hexit | ⟨m, hm, hown⟩
    · exact .inl hexit
    · exact .inr ⟨m, List.mem_append_right _ hm, hown⟩
  | some o =>
    obtain ⟨m, hm, -, hown⟩ := exists_owner o c i
    rw [point_of_some ho]
    refine .inr ⟨m, List.mem_append_left _ ?_, hown⟩
    rw [drop_eq_cons ho, preorderFrom]
    exact List.mem_append_left _ hm

/-- A walk hands out the operations of a sequence in one stretch, and the point where the sequence
goes on belongs to an operation after that stretch. -/
theorem Below.exit_owned (h : base.Below c) : ∃ pre post,
    base.preorder = pre ++ (c.preorder ++ post) ∧
      (c.exit = base.exit ∨ ∃ m ∈ post, m.placed.own? = some c.exit) := by
  induction h with
  | here => exact ⟨[], [], by simp, .inl rfl⟩
  | @region c i o r s _ ho hr ih =>
    obtain ⟨pre, post, heq, hexit⟩ := ih
    obtain ⟨before, after, hregions⟩ := List.append_of_mem hr
    -- After the region come the other regions of its owner, which control does not enter, and only
    -- then the elements after the owner.
    refine ⟨pre ++ (preorderFrom c 0 (c.ops.take i) ++ ⟨c, i, o⟩ ::
        before.flatMap fun p => (c.descend i p.1 p.2).preorder),
      (after.flatMap fun p => (c.descend i p.1 p.2).preorder) ++
        (preorderFrom c (i + 1) (c.ops.drop (i + 1)) ++ post), ?_, ?_⟩
    · rw [heq, preorder_split ho, preorderOf_eq, hregions]
      simp
    · rw [exit_descend, successor_eq_point]
      rcases point_owned hexit (i + 1) with h | ⟨m, hm, hown⟩
      · exact .inl h
      · exact .inr ⟨m, List.mem_append_right _ hm, hown⟩

theorem Below.successor_owned {i : Nat} {o : Op d} (h : base.Below c) (ho : c.ops[i]? = some o) :
    ∃ pre post, base.preorder = pre ++ (preorderOf c i o ++ post) ∧
      (c.successor i = base.exit ∨ ∃ m ∈ post, m.placed.own? = some (c.successor i)) := by
  obtain ⟨pre, post, heq, hexit⟩ := h.exit_owned
  refine ⟨pre ++ preorderFrom c 0 (c.ops.take i),
    preorderFrom c (i + 1) (c.ops.drop (i + 1)) ++ post, ?_, ?_⟩
  · rw [heq, preorder_split ho]
    simp
  · rw [successor_eq_point]
    exact point_owned hexit (i + 1)

end Context

namespace Program

variable {p : Program d} {h : Home} {l m : Located d}

theorem position_inj {i j : Nat} (hi : (p.operations h)[i]? = some l)
    (hj : (p.operations h)[j]? = some l) : i = j := by
  obtain ⟨hlt, -⟩ := List.getElem?_eq_some_iff.mp hi
  exact (List.getElem?_inj hlt (p.operations_nodup h)).mp (hi.trans hj.symm)

/-- The successor of an operation is the point after the program, or it belongs to an operation past
the whole tree of the operation. -/
theorem successor_owner {i : Nat} (hi : (p.operations h)[i]? = some l) :
    l.context.successor l.index = p.exit h ∨ ∃ j m, i + l.op.count ≤ j ∧
      (p.operations h)[j]? = some m ∧ m.placed.own? = some (l.context.successor l.index) := by
  obtain ⟨c, k, o⟩ := l
  have hl := mem_operations.mp (List.mem_of_getElem? hi)
  obtain ⟨pre, post, heq, hexit⟩ := hl.1.successor_owned hl.2
  rw [← operations_eq] at heq
  rcases hexit with hexit | ⟨m, hm, hown⟩
  · exact .inl hexit
  · right
    have hpos : (p.operations h)[pre.length]? = some ⟨c, k, o⟩ := by
      rw [heq, preorderOf_eq]
      simp
    obtain ⟨n, hn, rfl⟩ := List.getElem_of_mem hm
    have hlen : (preorderOf c k o).length = o.count := length_preorderOf o c k
    have hnth :
        (pre ++ (preorderOf c k o ++ post))[pre.length + (o.count + n)]? = some post[n] := by
      rw [List.getElem?_append_right (by omega), Nat.add_sub_cancel_left,
        List.getElem?_append_right (by omega), hlen, Nat.add_sub_cancel_left,
        List.getElem?_eq_getElem hn]
    refine ⟨i + (o.count + n), post[n], ?_, ?_, hown⟩
    · exact Nat.add_le_add_left (Nat.le_add_right _ _) i
    · rw [← position_inj hpos hi, heq]
      exact hnth

def owner? (p : Program d) (h : Home) (q : Point) : Option (Located d) :=
  (p.operations h).find? fun m => m.placed.own? == some q

def next? (p : Program d) (h : Home) (l : Located d) : Option (Located d) :=
  l.exit?.bind (p.owner? h)

def follow? (p : Program d) (h : Home) : Nat → Located d → Option (Located d)
  | 0, l => some l
  | n + 1, l => (p.next? h l).bind (p.follow? h n)

theorem owner?_eq_some_iff {q : Point} :
    p.owner? h q = some m ↔ m ∈ p.operations h ∧ m.placed.own? = some q := by
  have found : ∀ {m : Located d}, p.owner? h q = some m →
      m ∈ p.operations h ∧ m.placed.own? = some q := by
    intro m ho
    have hown := List.find?_some (p := fun m : Located d => m.placed.own? == some q) ho
    exact ⟨List.mem_of_find?_eq_some ho, beq_iff_eq.mp hown⟩
  constructor
  · exact found
  · rintro ⟨hm, hown⟩
    cases ho : p.owner? h q with
    | none => simpa [hown] using List.find?_eq_none.mp ho m hm
    | some m' => rw [eq_of_own? (found ho).1 hm (found ho).2 hown]

theorem next?_eq_some_iff :
    p.next? h l = some m ↔ m ∈ p.operations h ∧ l.op.fallsThrough = true ∧
      m.placed.own? = some (l.context.successor l.index) := by
  cases hf : l.op.fallsThrough with
  | false => simp [next?, Located.exit?, hf]
  | true => simp [next?, Located.exit?, hf, owner?_eq_some_iff]

/-- Each move goes past the tree of the operation that it starts from. -/
theorem lt_of_next? {i : Nat} (hi : (p.operations h)[i]? = some l) (hn : p.next? h l = some m) :
    ∃ j, i + l.op.count ≤ j ∧ (p.operations h)[j]? = some m := by
  obtain ⟨hm, -, hown⟩ := next?_eq_some_iff.mp hn
  rcases successor_owner hi with hexit | ⟨j, m', hj, hm', hown'⟩
  · rw [hexit] at hown
    exact absurd (PlacedOp.own?_eq_exit_iff.mp hown).2.symm OpPath.enter_ne_body
  · rw [eq_of_own? hm (List.mem_of_getElem? hm') hown hown']
    exact ⟨j, hj, hm'⟩

theorem le_of_follow? {i n : Nat} (hi : (p.operations h)[i]? = some l)
    (hn : p.follow? h n l = some m) : ∃ j, i + n ≤ j ∧ (p.operations h)[j]? = some m := by
  induction n generalizing i l with
  | zero =>
    rw [follow?, Option.some.injEq] at hn
    exact ⟨i, Nat.le_refl _, hn ▸ hi⟩
  | succ n ih =>
    obtain ⟨l', hl', hn⟩ := Option.bind_eq_some_iff.mp hn
    obtain ⟨j, hj, hjl⟩ := lt_of_next? hi hl'
    obtain ⟨k, hk, hkm⟩ := ih hjl hn
    have := l.op.count_pos
    exact ⟨k, by omega, hkm⟩

/-- Moves come to an operation that ends the program or does not fall through, within the positions
that are left in the walk. -/
theorem exists_follow?_final {i : Nat} (hi : (p.operations h)[i]? = some l) :
    ∃ n m, i + n < (p.operations h).length ∧ p.follow? h n l = some m ∧
      (m.op.fallsThrough = false ∨ m.exit? = some (p.exit h)) := by
  have hlen := (List.getElem?_eq_some_iff.mp hi).1
  -- Every move goes past a tree, so fewer positions are left after it.
  induction hleft : (p.operations h).length - i using Nat.strongRecOn generalizing i l with
  | ind left ih =>
    cases hf : l.op.fallsThrough with
    | false => exact ⟨0, l, hlen, rfl, .inl hf⟩
    | true =>
      rcases successor_owner hi with hexit | ⟨j, m, hj, hm, hown⟩
      · exact ⟨0, l, hlen, rfl, .inr (by simp [Located.exit?, hf, hexit])⟩
      · have hpos := l.op.count_pos
        have hjlen := (List.getElem?_eq_some_iff.mp hm).1
        obtain ⟨n, x, hn, hx, hfinal⟩ := ih _ (by omega) hm hjlen rfl
        refine ⟨n + 1, x, by omega, ?_, hfinal⟩
        rw [follow?, next?_eq_some_iff.mpr ⟨List.mem_of_getElem? hm, hf, hown⟩]
        exact hx

theorem successor_forward {i : Nat} (hi : (p.operations h)[i]? = some l) :
    l.context.successor l.index = p.exit h ∨ ∃ j m, i + l.op.count ≤ j ∧
      (p.operations h)[j]? = some m ∧ l.context.successor l.index = m.entry := by
  rcases successor_owner hi with hexit | ⟨j, m, hj, hm, hown⟩
  · exact .inl hexit
  · exact .inr ⟨j, m, hj, hm, (PlacedOp.entry_of_own? hown).symm⟩

theorem located_of_enclosingLoop? {c : Context d} {x : Context d × PlacedOp d}
    (hc : p.Navigates h c) (hx : c.enclosingLoop? = some x) :
    ∃ l ∈ p.operations h, l.context = x.1 ∧ l.placed = x.2 ∧ l.op.isLoop = true ∧
      c.breakTarget? = some (l.context.successor l.index) ∧ c.loopHeader? = some l.entry := by
  obtain ⟨hbelow, hget, hloop⟩ := (below_of_navigates hc).of_enclosingLoop? rfl hx
  obtain ⟨x, path, op⟩ := x
  obtain ⟨hpath, hop⟩ := Context.get?_eq_some_iff.mp hget
  simp only at hpath
  refine ⟨⟨x, path.index, op⟩, mem_operations.mpr ⟨hbelow, hop⟩, rfl, ?_, hloop, ?_, ?_⟩
  · rw [Located.placed, ← hpath]
  · rw [Context.breakTarget?, hx]
    rfl
  · rw [Context.loopHeader?, hx, Located.entry, Located.placed, ← hpath]
    rfl

/-- Successors and break targets lie past the whole tree of the operation that is left, in the order
of the walk, or are the point after the program.  So moving along successors, from an operation to
the one that the successor belongs to, never comes back and ends in fewer moves than there are
operations: at an operation that does not fall through, or one whose successor is the point after
the program. -/
theorem flow_forward (p : Program d) (h : Home) :
    (∀ (i : Nat) (l : Located d), (p.operations h)[i]? = some l → l.op.fallsThrough = true →
      ∃ q, l.context.exitOf l.placed = .ok (some q) ∧
        (q = p.exit h ∨ ∃ j m, i + l.op.count ≤ j ∧ (p.operations h)[j]? = some m ∧ q = m.entry)) ∧
    (∀ c x, p.Navigates h c → c.enclosingLoop? = some x →
      ∃ (i : Nat) (l : Located d) (q : Point), (p.operations h)[i]? = some l ∧
        l.context = x.1 ∧ l.placed = x.2 ∧ c.breakTarget? = some q ∧
        (q = p.exit h ∨ ∃ j m, i + l.op.count ≤ j ∧ (p.operations h)[j]? = some m ∧ q = m.entry)) ∧
    (∀ l ∈ p.operations h, ∃ n m, n < (p.operations h).length ∧ p.follow? h n l = some m ∧
      (m.op.fallsThrough = false ∨ m.exit? = some (p.exit h))) ∧
    ∀ l ∈ p.operations h, ∀ n, p.follow? h (n + 1) l ≠ some l := by
  refine ⟨?_, ?_, ?_, ?_⟩
  · intro i l hi hf
    refine ⟨l.context.successor l.index, ?_, successor_forward hi⟩
    rw [Located.exitOf_placed (List.mem_of_getElem? hi), Located.exit?, if_pos hf]
  · intro c x hc hx
    obtain ⟨l, hl, hcontext, hplaced, -, htarget, -⟩ := located_of_enclosingLoop? hc hx
    obtain ⟨i, hi⟩ := List.getElem?_of_mem hl
    exact ⟨i, l, _, hi, hcontext, hplaced, htarget, successor_forward hi⟩
  · intro l hl
    obtain ⟨i, hi⟩ := List.getElem?_of_mem hl
    obtain ⟨n, m, hn, hm, hfinal⟩ := exists_follow?_final hi
    exact ⟨n, m, by omega, hm, hfinal⟩
  · intro l hl n hn
    obtain ⟨i, hi⟩ := List.getElem?_of_mem hl
    obtain ⟨j, hj, hjl⟩ := le_of_follow? hi hn
    have := position_inj hi hjl
    omega

theorem flow_forward_sample :
    (sample.operations .main)[4]? = some ⟨sampleScope, 1, .scope rfl []⟩ ∧
    (Op.scope rfl [] : Op .imp).fallsThrough = true ∧
    ∃ q, sampleScope.exitOf ⟨⟨sampleScope.path, 1⟩, .scope rfl []⟩ = .ok (some q) ∧
      (q = sample.exit .main ∨
        ∃ j m, 4 + 1 ≤ j ∧ (sample.operations .main)[j]? = some m ∧ q = m.entry) := by
  have hi : (sample.operations .main)[4]? = some ⟨sampleScope, 1, .scope rfl []⟩ := by
    rw [operations_eq]
    rfl
  exact ⟨hi, rfl, (flow_forward sample .main).1 4 _ hi rfl⟩

end Program

end RegionFlow
