import JsonWalk.Proofs.Passage
import JsonWalk.Query

/-!
# Collecting during a walk

A walk that collects goes on when no more hits are wanted, with every node skipped, where a scan of
the document ends. So it collects what the scan finds, and can only fail where the scan does not
look: behind the last hit, by too much nesting.
-/

namespace JsonWalk.Query

variable {σ : Type} {pattern : Pattern} {limit : Option Nat} {p : Predicate σ} {maxDepth : Nat}
  {path : Path} {depth position : Nat} {v : Value} {f f' : Found σ}

/-! ### Scans that are full -/

theorem offer_of_isFull (h : f.isFull limit) : offer pattern limit p path v f = f := if_pos h

theorem scanItems_cons {rest : List Value} :
    scanItems pattern limit p maxDepth path depth position (v :: rest) f =
      if f.isFull limit then .ok () f
      else (scanValue pattern limit p maxDepth (path ++ [.index position]) depth v >>= fun _ =>
        scanItems pattern limit p maxDepth path depth (position + 1) rest) f := by
  rw [scanItems]
  exact apply_ite (fun m : EStateM WalkError (Found σ) Unit => m f) _ _ _

theorem scanMembers_cons {name : String} {rest : List (String × Value)} :
    scanMembers pattern limit p maxDepth path depth ((name, v) :: rest) f =
      if f.isFull limit then .ok () f
      else (scanValue pattern limit p maxDepth (path ++ [.member name]) depth v >>= fun _ =>
        scanMembers pattern limit p maxDepth path depth rest) f := by
  rw [scanMembers]
  exact apply_ite (fun m : EStateM WalkError (Found σ) Unit => m f) _ _ _

theorem scanItems_of_isFull (items : List Value) (h : f.isFull limit) :
    scanItems pattern limit p maxDepth path depth position items f = .ok () f := by
  cases items with
  | nil => rfl
  | cons v rest => rw [scanItems_cons, if_pos h]

theorem scanMembers_of_isFull (members : List (String × Value)) (h : f.isFull limit) :
    scanMembers pattern limit p maxDepth path depth members f = .ok () f := by
  cases members with
  | nil => rfl
  | cons m rest => rw [scanMembers_cons, if_pos h]

theorem scanValue_scalar (hv : v.kind.isContainer = false) (hdepth : depth ≤ maxDepth) :
    scanValue pattern limit p maxDepth path depth v = modify (offer pattern limit p path v) := by
  cases v with
  | array => cases hv
  | object => cases hv
  | _ =>
    rw [scanValue]
    exact if_neg (Nat.not_lt.2 hdepth)

theorem scanValue_array {items : List Value} :
    scanValue pattern limit p maxDepth path depth (.array items) =
      if maxDepth < depth + 1 then throw (.tooDeep maxDepth)
      else scanItems pattern limit p maxDepth path (depth + 1) 0 items >>= fun _ =>
        modify (offer pattern limit p path (.array items)) := by
  rw [scanValue]
  rfl

theorem scanValue_object {members : List (String × Value)} :
    scanValue pattern limit p maxDepth path depth (.object members) =
      if maxDepth < depth + 1 then throw (.tooDeep maxDepth)
      else scanMembers pattern limit p maxDepth path (depth + 1) members >>= fun _ =>
        modify (offer pattern limit p path (.object members)) := by
  rw [scanValue]
  rfl

mutual

/-- A scan overlooks too much nesting only if it ends full. -/
theorem isFull_of_scanValue : ∀ {v : Value} {path : Path} {depth : Nat} {f f' : Found σ},
    scanValue pattern limit p maxDepth path depth v f = .ok () f' →
      depth ≤ maxDepth → maxDepth < depth + v.nesting → f'.isFull limit
  | .null, _, _, _, _, _, hdepth, hdeep | .bool _, _, _, _, _, _, hdepth, hdeep
  | .number _, _, _, _, _, _, hdepth, hdeep | .string _, _, _, _, _, _, hdepth, hdeep => by
    rw [Value.nesting] at hdeep
    omega
  | .array items, _, depth, f, f', h, _, hdeep => by
    rw [scanValue_array] at h
    split at h
    · cases h
    · obtain ⟨_, f₁, h₁, h₂⟩ := bind_eq_ok_iff.1 h
      cases h₂
      rw [Value.nesting] at hdeep
      have hfull := isFull_of_scanItems h₁ (by omega) (by omega)
      rwa [offer_of_isFull hfull]
  | .object members, _, depth, f, f', h, _, hdeep => by
    rw [scanValue_object] at h
    split at h
    · cases h
    · obtain ⟨_, f₁, h₁, h₂⟩ := bind_eq_ok_iff.1 h
      cases h₂
      rw [Value.nesting] at hdeep
      have hfull := isFull_of_scanMembers h₁ (by omega) (by omega)
      rwa [offer_of_isFull hfull]

theorem isFull_of_scanItems : ∀ {items : List Value} {path : Path} {depth position : Nat}
    {f f' : Found σ}, scanItems pattern limit p maxDepth path depth position items f = .ok () f' →
      depth ≤ maxDepth → maxDepth < depth + Value.itemsNesting items → f'.isFull limit
  | [], _, depth, _, _, _, _, hdepth, hdeep => by
    rw [Value.itemsNesting] at hdeep
    omega
  | v :: rest, _, depth, position, f, f', h, hdepth, hdeep => by
    by_cases hf : f.isFull limit
    · rw [scanItems_of_isFull _ hf] at h
      cases h
      exact hf
    · rw [scanItems_cons, if_neg hf] at h
      obtain ⟨_, f₁, h₁, h₂⟩ := bind_eq_ok_iff.1 h
      rw [Value.itemsNesting] at hdeep
      by_cases hv : maxDepth < depth + v.nesting
      · have hfull := isFull_of_scanValue h₁ hdepth hv
        rw [scanItems_of_isFull _ hfull] at h₂
        cases h₂
        exact hfull
      · exact isFull_of_scanItems h₂ hdepth (by omega)

theorem isFull_of_scanMembers : ∀ {members : List (String × Value)} {path : Path} {depth : Nat}
    {f f' : Found σ}, scanMembers pattern limit p maxDepth path depth members f = .ok () f' →
      depth ≤ maxDepth → maxDepth < depth + Value.membersNesting members → f'.isFull limit
  | [], _, depth, _, _, _, hdepth, hdeep => by
    rw [Value.membersNesting] at hdeep
    omega
  | (name, v) :: rest, _, depth, f, f', h, hdepth, hdeep => by
    by_cases hf : f.isFull limit
    · rw [scanMembers_of_isFull _ hf] at h
      cases h
      exact hf
    · rw [scanMembers_cons, if_neg hf] at h
      obtain ⟨_, f₁, h₁, h₂⟩ := bind_eq_ok_iff.1 h
      rw [Value.membersNesting] at hdeep
      by_cases hv : maxDepth < depth + v.nesting
      · have hfull := isFull_of_scanValue h₁ hdepth hv
        rw [scanMembers_of_isFull _ hfull] at h₂
        cases h₂
        exact hfull
      · exact isFull_of_scanMembers h₂ hdepth (by omega)

end

mutual

theorem exists_scanValue_eq_ok : ∀ {v : Value} (path : Path) {depth : Nat} (f : Found σ),
    depth + v.nesting ≤ maxDepth →
      ∃ f', scanValue pattern limit p maxDepth path depth v f = .ok () f'
  | .null, path, depth, f, h | .bool _, path, depth, f, h | .number _, path, depth, f, h
  | .string _, path, depth, f, h => by
    rw [Value.nesting, Nat.add_zero] at h
    rw [scanValue_scalar rfl h]
    exact ⟨_, rfl⟩
  | .array items, path, depth, f, h => by
    rw [Value.nesting] at h
    rw [scanValue_array, if_neg (by omega)]
    have hitems : depth + 1 + Value.itemsNesting items ≤ maxDepth := by omega
    obtain ⟨f₁, h₁⟩ := exists_scanItems_eq_ok path 0 f hitems
    rw [bind_of_ok h₁]
    exact ⟨_, rfl⟩
  | .object members, path, depth, f, h => by
    rw [Value.nesting] at h
    rw [scanValue_object, if_neg (by omega)]
    have hmembers : depth + 1 + Value.membersNesting members ≤ maxDepth := by omega
    obtain ⟨f₁, h₁⟩ := exists_scanMembers_eq_ok path f hmembers
    rw [bind_of_ok h₁]
    exact ⟨_, rfl⟩

theorem exists_scanItems_eq_ok : ∀ {items : List Value} (path : Path) {depth : Nat}
    (position : Nat) (f : Found σ), depth + Value.itemsNesting items ≤ maxDepth →
      ∃ f', scanItems pattern limit p maxDepth path depth position items f = .ok () f'
  | [], _, _, _, f, _ => ⟨f, rfl⟩
  | v :: rest, path, depth, position, f, h => by
    by_cases hf : f.isFull limit
    · exact ⟨f, scanItems_of_isFull _ hf⟩
    · rw [Value.itemsNesting] at h
      have hv : depth + v.nesting ≤ maxDepth := by omega
      obtain ⟨f₁, h₁⟩ := exists_scanValue_eq_ok (path ++ [.index position]) f hv
      rw [scanItems_cons, if_neg hf, bind_of_ok h₁]
      exact exists_scanItems_eq_ok path (position + 1) f₁ (by omega)

theorem exists_scanMembers_eq_ok : ∀ {members : List (String × Value)} (path : Path) {depth : Nat}
    (f : Found σ), depth + Value.membersNesting members ≤ maxDepth →
      ∃ f', scanMembers pattern limit p maxDepth path depth members f = .ok () f'
  | [], _, _, f, _ => ⟨f, rfl⟩
  | (name, v) :: rest, path, depth, f, h => by
    by_cases hf : f.isFull limit
    · exact ⟨f, scanMembers_of_isFull _ hf⟩
    · rw [Value.membersNesting] at h
      have hv : depth + v.nesting ≤ maxDepth := by omega
      obtain ⟨f₁, h₁⟩ := exists_scanValue_eq_ok (path ++ [.member name]) f hv
      rw [scanMembers_cons, if_neg hf, bind_of_ok h₁]
      exact exists_scanMembers_eq_ok path f₁ (by omega)

end

/-! ### Walks that collect -/

section

variable {α β γ : Type} {m : Nat} {a : α} {scan : EStateM WalkError (Found σ) Unit}
  {rest : α → EStateM WalkError (Found σ) Unit}

/-- A scan that is full where it overlooks too much nesting, and one that does nothing when it is
full, may tell of the nesting together. -/
theorem scan_within_bind (n : Nat) (b : β) (g : α → β → γ)
    (hfull : ∀ f f', scan f = .ok () f' → maxDepth < m → f'.isFull limit)
    (hidle : ∀ f, f.isFull limit → rest a f = .ok () f) :
    (scan >>= fun _ => within maxDepth m a >>= fun a =>
        rest a >>= fun _ => within maxDepth n b >>= fun b => pure (g a b)) =
      scan >>= fun _ => rest a >>= fun _ => within maxDepth (max m n) (g a b) := by
  funext f
  cases hscan : scan f with
  | error e f₁ => simp only [bind, EStateM.bind, hscan]
  | ok _ f₁ =>
    rw [bind_of_ok hscan, bind_of_ok hscan]
    by_cases hm : maxDepth < m
    · have hboth : maxDepth < max m n := by omega
      rw [bind_of_ok (hidle f₁ (hfull f f₁ hscan hm)), within_of_lt hm, within_of_lt hboth]
      rfl
    · have hn : (within maxDepth n b >>= fun b => pure (g a b) : EStateM WalkError (Found σ) γ) =
          within maxDepth (max m n) (g a b) := by
        by_cases hn : maxDepth < n
        · rw [within_of_lt hn, within_of_lt (by omega)]
          rfl
        · rw [within_of_le (by omega), within_of_le (by omega), pure_bind]
      rw [within_of_le (Nat.not_lt.1 hm), pure_bind, hn]

theorem scan_within_bind_pure (g : α → γ)
    (hfull : ∀ f f', scan f = .ok () f' → maxDepth < m → f'.isFull limit)
    (hidle : ∀ f, f.isFull limit → rest a f = .ok () f) :
    (scan >>= fun _ => within maxDepth m a >>= fun a => rest a >>= fun _ => pure (g a)) =
      scan >>= fun _ => rest a >>= fun _ => within maxDepth m (g a) := by
  have h := scan_within_bind 0 () (fun a _ => g a) hfull hidle
  simpa only [within_of_le (Nat.zero_le _), pure_bind, Nat.max_zero] using h

end

theorem modify_offer_of_isFull (h : f.isFull limit) :
    (modify (offer pattern limit p path v) : EStateM WalkError (Found σ) Unit) f = .ok () f :=
  congrArg (EStateM.Result.ok ()) (offer_of_isFull h)

theorem enter_collector (kind : NodeKind) (path : Path) :
    (collector pattern limit p).enter kind path f = .ok (f.isFull limit) f := rfl

theorem leave_collector {kind : NodeKind} (place : Place) (h : kind ≠ .member) :
    (collector pattern limit p).leave kind path place v =
      modify (offer pattern limit p path v) >>= fun _ => pure (some v) := by
  funext f
  have hleave : (collector pattern limit p).leave kind path place v f =
      .ok (some v) (if kind = .member then f else offer pattern limit p path v f) := rfl
  rw [hleave, if_neg h]
  rfl

theorem leave_collector_member (place : Place) :
    (collector pattern limit p).leave .member path place v = pure (some v) := rfl

/-- Leaving a container offers it, also where the scan has overlooked something. -/
theorem leave_collector_of_scan {α : Type} {m : Nat} {a : α} {kind : NodeKind}
    {scan : EStateM WalkError (Found σ) Unit} (g : α → Value) (place : Place) (h : kind ≠ .member)
    (hfull : ∀ f f', scan f = .ok () f' → maxDepth < m → f'.isFull limit) :
    (scan >>= fun _ => within maxDepth m a >>= fun a =>
        (collector pattern limit p).leave kind path place (g a) >>= fun left =>
          pure (left.getD .null)) =
      scan >>= fun _ => modify (offer pattern limit p path (g a)) >>= fun _ =>
        within maxDepth m (g a) := by
  simp only [leave_collector place h, bind_assoc, pure_bind, Option.getD_some]
  exact scan_within_bind_pure g hfull fun _ => modify_offer_of_isFull

theorem passScalar_collector (place : Place) :
    passScalar (collector pattern limit p) path place v =
      modify (offer pattern limit p path v) >>= fun _ => pure v := by
  funext f
  rw [passScalar, bind_of_ok (enter_collector _ _), Listener.leaveUnless]
  by_cases hf : f.isFull limit
  · rw [if_pos hf, bind_of_ok (modify_offer_of_isFull hf)]
    rfl
  · rw [if_neg hf]
    simp only [leave_collector place v.kind_ne_member, bind_assoc, pure_bind, Option.getD_some]

/-- A full scan does nothing, or complains of too much nesting. -/
theorem scanValue_of_isFull (pattern : Pattern) (p : Predicate σ) (path : Path) (v : Value)
    (hdepth : depth ≤ maxDepth) (h : f.isFull limit) :
    scanValue pattern limit p maxDepth path depth v f = .ok () f ∨
      maxDepth < depth + v.nesting ∧
        scanValue pattern limit p maxDepth path depth v f = .error (.tooDeep maxDepth) f := by
  cases v with
  | array items =>
    rw [scanValue_array, Value.nesting]
    by_cases hd : maxDepth < depth + 1
    · rw [if_pos hd]
      exact .inr ⟨by omega, rfl⟩
    · rw [if_neg hd, bind_of_ok (scanItems_of_isFull items h)]
      exact .inl (modify_offer_of_isFull h)
  | object members =>
    rw [scanValue_object, Value.nesting]
    by_cases hd : maxDepth < depth + 1
    · rw [if_pos hd]
      exact .inr ⟨by omega, rfl⟩
    · rw [if_neg hd, bind_of_ok (scanMembers_of_isFull members h)]
      exact .inl (modify_offer_of_isFull h)
  | _ =>
    rw [scanValue_scalar rfl hdepth]
    exact .inl (modify_offer_of_isFull h)

theorem scanValue_bind_within_of_isFull {α : Type} {rest : EStateM WalkError (Found σ) Unit}
    {n : Nat} (a : α) (hdepth : depth ≤ maxDepth) (h : f.isFull limit)
    (hidle : rest f = .ok () f) (hn : depth + v.nesting ≤ n) :
    (scanValue pattern limit p maxDepth path depth v >>= fun _ => rest >>= fun _ =>
        within maxDepth n a) f = within maxDepth n a f := by
  rcases scanValue_of_isFull pattern p path v hdepth h with hscan | ⟨hdeep, hscan⟩
  · rw [bind_of_ok hscan, bind_of_ok hidle]
  · rw [within_of_lt (by omega)]
    simp only [bind, EStateM.bind, hscan]
    rfl

theorem scanItems_cons_bind_within {α : Type} {rest : List Value} (a : α)
    (hdepth : depth ≤ maxDepth) :
    (scanItems pattern limit p maxDepth path depth position (v :: rest) >>= fun _ =>
        within maxDepth (depth + Value.itemsNesting (v :: rest)) a) =
      scanValue pattern limit p maxDepth (path ++ [.index position]) depth v >>= fun _ =>
        scanItems pattern limit p maxDepth path depth (position + 1) rest >>= fun _ =>
          within maxDepth (depth + Value.itemsNesting (v :: rest)) a := by
  funext f
  by_cases hf : f.isFull limit
  · rw [bind_of_ok (scanItems_of_isFull _ hf), scanValue_bind_within_of_isFull a hdepth hf
      (scanItems_of_isFull rest hf)]
    rw [Value.itemsNesting]
    omega
  · rw [← bind_assoc]
    simp only [bind, EStateM.bind, scanItems_cons, if_neg hf]

theorem scanMembers_cons_bind_within {α : Type} {name : String} {rest : List (String × Value)}
    (a : α) (hdepth : depth ≤ maxDepth) :
    (scanMembers pattern limit p maxDepth path depth ((name, v) :: rest) >>= fun _ =>
        within maxDepth (depth + Value.membersNesting ((name, v) :: rest)) a) =
      scanValue pattern limit p maxDepth (path ++ [.member name]) depth v >>= fun _ =>
        scanMembers pattern limit p maxDepth path depth rest >>= fun _ =>
          within maxDepth (depth + Value.membersNesting ((name, v) :: rest)) a := by
  funext f
  by_cases hf : f.isFull limit
  · rw [bind_of_ok (scanMembers_of_isFull _ hf), scanValue_bind_within_of_isFull a hdepth hf
      (scanMembers_of_isFull rest hf)]
    rw [Value.membersNesting]
    omega
  · rw [← bind_assoc]
    simp only [bind, EStateM.bind, scanMembers_cons, if_neg hf]

theorem passMember_collector (name : String) (hdepth : depth ≤ maxDepth)
    (h : passValue (collector pattern limit p) maxDepth path (.memberValue name) depth v =
      scanValue pattern limit p maxDepth path depth v >>= fun _ =>
        within maxDepth (depth + v.nesting) v) :
    ((collector pattern limit p).enter .member path >>= fun skipped =>
        if skipped then some <$> passOver maxDepth depth v
        else passValue (collector pattern limit p) maxDepth path (.memberValue name) depth v >>=
          fun v => (collector pattern limit p).leave .member path (.member name) v) =
      scanValue pattern limit p maxDepth path depth v >>= fun _ =>
        within maxDepth (depth + v.nesting) (some v) := by
  have hsome : (some <$> within maxDepth (depth + v.nesting) v :
      EStateM WalkError (Found σ) (Option Value)) = within maxDepth (depth + v.nesting) (some v) :=
    (map_eq_pure_bind _ _).trans (within_bind_pure some)
  funext f
  rw [bind_of_ok (enter_collector _ _)]
  by_cases hf : f.isFull limit
  · have hscan : (scanValue pattern limit p maxDepth path depth v >>= fun _ => pure () >>= fun _ =>
        within maxDepth (depth + v.nesting) (some v)) f = _ :=
      scanValue_bind_within_of_isFull (some v) hdepth hf rfl (Nat.le_refl _)
    simp only [pure_bind] at hscan
    rw [if_pos hf, hscan, ← hsome]
    rfl
  · rw [if_neg hf, h, bind_assoc]
    simp only [leave_collector_member, within_bind_pure]

mutual

/-- A walk that collects is a scan, followed by what the scan has overlooked. -/
theorem passValue_collector : ∀ (v : Value) (path : Path) (place : Place) {depth : Nat},
    depth ≤ maxDepth → passValue (collector pattern limit p) maxDepth path place depth v =
      scanValue pattern limit p maxDepth path depth v >>= fun _ =>
        within maxDepth (depth + v.nesting) v
  | .null, path, place, depth, hdepth | .bool _, path, place, depth, hdepth
  | .number _, path, place, depth, hdepth | .string _, path, place, depth, hdepth => by
    rw [passValue, passScalar_collector place, scanValue_scalar rfl hdepth, Value.nesting,
      Nat.add_zero, within_of_le hdepth]
  | .array items, path, place, depth, hdepth => by
    rw [passValue, scanValue_array]
    by_cases hd : maxDepth < depth + 1
    · rw [if_pos hd, if_pos hd]
      rfl
    · rw [if_neg hd, if_neg hd]
      funext f
      rw [bind_of_ok (enter_collector _ _), bind_assoc]
      by_cases hf : f.isFull limit
      · rw [if_pos hf, bind_of_ok (scanItems_of_isFull items hf),
          bind_of_ok (modify_offer_of_isFull hf)]
        rfl
      · have hkind := Value.kind_ne_member (.array items)
        have hfull : ∀ f f', scanItems pattern limit p maxDepth path (depth + 1) 0 items f =
            .ok () f' → maxDepth < depth + 1 + Value.itemsNesting items → f'.isFull limit :=
          fun _ _ h => isFull_of_scanItems h (by omega)
        rw [if_neg hf, passItems_collector items path 0 (by omega), bind_assoc,
          Value.add_nesting_array]
        exact congrFun (leave_collector_of_scan Value.array place hkind hfull) f
  | .object members, path, place, depth, hdepth => by
    rw [passValue, scanValue_object]
    by_cases hd : maxDepth < depth + 1
    · rw [if_pos hd, if_pos hd]
      rfl
    · rw [if_neg hd, if_neg hd]
      funext f
      rw [bind_of_ok (enter_collector _ _), bind_assoc]
      by_cases hf : f.isFull limit
      · rw [if_pos hf, bind_of_ok (scanMembers_of_isFull members hf),
          bind_of_ok (modify_offer_of_isFull hf)]
        rfl
      · have hkind := Value.kind_ne_member (.object members)
        have hfull : ∀ f f', scanMembers pattern limit p maxDepth path (depth + 1) members f =
            .ok () f' → maxDepth < depth + 1 + Value.membersNesting members → f'.isFull limit :=
          fun _ _ h => isFull_of_scanMembers h (by omega)
        rw [if_neg hf, passMembers_collector members path (by omega), bind_assoc,
          Value.add_nesting_object]
        exact congrFun (leave_collector_of_scan Value.object place hkind hfull) f

theorem passItems_collector : ∀ (items : List Value) (path : Path) (position : Nat) {depth : Nat},
    depth ≤ maxDepth → passItems (collector pattern limit p) maxDepth path depth position items =
      scanItems pattern limit p maxDepth path depth position items >>= fun _ =>
        within maxDepth (depth + Value.itemsNesting items) items
  | [], path, position, depth, hdepth => by
    rw [passItems, scanItems, Value.itemsNesting, within_of_le (by omega)]
    rfl
  | v :: rest, path, position, depth, hdepth => by
    have hfull : ∀ f f', scanValue pattern limit p maxDepth (path ++ [.index position]) depth v f =
        .ok () f' → maxDepth < depth + v.nesting → f'.isFull limit :=
      fun _ _ h => isFull_of_scanValue h hdepth
    have hidle : ∀ f : Found σ, f.isFull limit →
        scanItems pattern limit p maxDepth path depth (position + 1) rest f = .ok () f :=
      fun _ => scanItems_of_isFull rest
    rw [scanItems_cons_bind_within _ hdepth, passItems,
      passValue_collector v _ (.element position) hdepth,
      passItems_collector rest path (position + 1) hdepth, Value.itemsNesting,
      ← Nat.add_max_add_left]
    simp only [bind_assoc]
    exact scan_within_bind _ rest List.cons hfull hidle

theorem passMembers_collector : ∀ (members : List (String × Value)) (path : Path) {depth : Nat},
    depth ≤ maxDepth → passMembers (collector pattern limit p) maxDepth path depth members =
      scanMembers pattern limit p maxDepth path depth members >>= fun _ =>
        within maxDepth (depth + Value.membersNesting members) members
  | [], path, depth, hdepth => by
    rw [passMembers, scanMembers, Value.membersNesting, within_of_le (by omega)]
    rfl
  | (name, v) :: rest, path, depth, hdepth => by
    have hfull : ∀ f f', scanValue pattern limit p maxDepth (path ++ [.member name]) depth v f =
        .ok () f' → maxDepth < depth + v.nesting → f'.isFull limit :=
      fun _ _ h => isFull_of_scanValue h hdepth
    have hidle : ∀ f : Found σ, f.isFull limit →
        scanMembers pattern limit p maxDepth path depth rest f = .ok () f :=
      fun _ => scanMembers_of_isFull rest
    have hmember := passMember_collector name hdepth
      (passValue_collector v (path ++ [.member name]) (.memberValue name) hdepth)
    rw [scanMembers_cons_bind_within _ hdepth, passMembers_cons, hmember,
      passMembers_collector rest path hdepth, Value.membersNesting, ← Nat.add_max_add_left]
    simp only [bind_assoc]
    exact scan_within_bind _ rest (fun (kept : Option Value) rest =>
      (kept.map (name, ·)).toList ++ rest) hfull hidle

end

end JsonWalk.Query
