import JsonWalk.Proofs.Outline

/-!
# How open nodes lie in one another

At every moment of a walk the open nodes of an assembly fit together: a member lies in the object
that has just taken its name, any other node in an array or a member or at the root, and below a
skipped node everything is skipped. The path, the depth and what each node has gathered can be read
off them and off the tokens alone.
-/

namespace JsonWalk

/-! ### What tokens tell -/

/-- What tokens tell about an array or an object that is open. -/
inductive Tally where
  /-- So many values have ended in the array. -/
  | elements (count : Nat)
  /-- The names of the members that have begun, latest first. -/
  | names (seen : List String)
deriving DecidableEq, Repr

namespace Tally

def receive : List Tally → List Tally
  | .elements count :: outer => .elements (count + 1) :: outer
  | tallies => tallies

def note (name : String) : List Tally → List Tally
  | .names seen :: outer => .names (name :: seen) :: outer
  | tallies => tallies

def step (tallies : List Tally) : Token → List Tally
  | .beginArray => .elements 0 :: tallies
  | .beginObject => .names [] :: tallies
  | .endArray | .endObject => receive tallies.tail
  | .name name => note name tallies
  | .string _ | .number _ | .bool _ | .null => receive tallies
  | .endOfInput => tallies

/-- The tallies of the open containers, innermost first. -/
def count (ts : List Token) : List Tally := ts.foldl step []

theorem count_append_singleton (ts : List Token) (t : Token) :
    count (ts ++ [t]) = step (count ts) t := by
  rw [count, List.foldl_append]
  rfl

end Tally

/-! ### Open nodes -/

namespace Contents

def tally? : Contents → Option Tally
  | .array items => some (.elements items.size)
  | .object _ names => some (.names names)
  | .member _ => none

/-- An object has the names of all its members, each once. -/
def Tidy : Contents → Prop
  | .object members names => members.toList.map Prod.fst ⊆ names ∧ names.Nodup
  | .array _ | .member _ => True

end Contents

/-- A node can be the innermost one inside these. A member is still to come to its object. -/
def Frame.Fits (f : Frame) : List Frame → Prop
  | [] => f.place = .root ∧ f.contents.kind ≠ .member
  | ⟨.array items, _, skipped⟩ :: _ =>
    f.place = .element items.size ∧ f.contents.kind ≠ .member ∧ (skipped → f.skipped)
  | ⟨.member name, _, skipped⟩ :: _ =>
    f.place = .memberValue name ∧ f.contents.kind ≠ .member ∧ (skipped → f.skipped)
  | ⟨.object members names, _, skipped⟩ :: _ =>
    ∃ name seen, f.contents = .member name ∧ f.place = .member name ∧ names = name :: seen ∧
      members.toList.map Prod.fst ⊆ seen ∧ (skipped → f.skipped)

/-- Open nodes, innermost first, each in its place. -/
inductive Stacked : List Frame → Prop
  | nil : Stacked []
  | cons {f : Frame} {outer : List Frame} : f.Fits outer → f.contents.Tidy → Stacked outer →
    Stacked (f :: outer)

/-- An assembly in which at most `limit` containers can be open, with these tallies. -/
structure Assembly.Ordered (limit : Nat) (tallies : List Tally) (a : Assembly) : Prop where
  stacked : Stacked a.frames
  path_eq : a.path = a.frames.reverse.filterMap (·.place.segment?)
  depth_eq : a.depth = a.frames.countP (·.contents.kind.isContainer)
  depth_le : a.depth ≤ limit
  tally_eq : a.frames.filterMap (·.contents.tally?) = tallies
  document_eq : a.frames ≠ [] → a.document = none

theorem ne_member_of_isContainer {kind : NodeKind} (h : kind.isContainer) : kind ≠ .member := by
  rintro rfl
  cases h

theorem stacked_cons_iff {f : Frame} {outer : List Frame} :
    Stacked (f :: outer) ↔ f.Fits outer ∧ f.contents.Tidy ∧ Stacked outer := by
  constructor
  · rintro (_ | ⟨hfits, htidy, houter⟩)
    exact ⟨hfits, htidy, houter⟩
  · rintro ⟨hfits, htidy, houter⟩
    exact .cons hfits htidy houter

theorem Frame.Fits.kind_ne_object {f : Frame} {outer : List Frame} (h : f.Fits outer)
    (hkind : f.contents.kind ≠ .member) : outer.head?.map (·.contents.kind) ≠ some .object := by
  cases outer with
  | nil => exact nofun
  | cons around rest =>
    obtain ⟨gathered, place, skipped⟩ := around
    cases gathered with
    | array items | member name => exact nofun
    | object members names =>
      obtain ⟨name, -, hcontents, -⟩ := h
      rw [hcontents] at hkind
      exact absurd rfl hkind

theorem Frame.Fits.congr {contents contents' : Contents} {place : Place} {skipped : Bool}
    {outer : List Frame} (h : Frame.Fits ⟨contents, place, skipped⟩ outer)
    (hkind : contents'.kind = contents.kind) (hmember : contents.kind ≠ .member) :
    Frame.Fits ⟨contents', place, skipped⟩ outer := by
  rw [← hkind] at hmember
  cases outer with
  | nil => exact ⟨h.1, hmember⟩
  | cons around outer =>
    obtain ⟨gathered, place', skipped'⟩ := around
    cases gathered with
    | array items | member name => exact ⟨h.1, hmember, h.2.2⟩
    | object members names =>
      obtain ⟨name, -, hcontents, -⟩ := h
      have hname : contents.kind = .member := congrArg Contents.kind hcontents
      exact absurd (hkind.trans hname) hmember

/-- A member lies in an object that has its name, but not yet its value. -/
theorem Stacked.exists_object {name : String} {place : Place} {skipped : Bool} {outer : List Frame}
    (h : Stacked (⟨.member name, place, skipped⟩ :: outer)) :
    place = .member name ∧ ∃ members seen place' skipped' rest,
      outer = ⟨.object members (name :: seen), place', skipped'⟩ :: rest ∧
        members.toList.map Prod.fst ⊆ seen ∧ name ∉ seen := by
  obtain ⟨hfits, -, houter⟩ := stacked_cons_iff.1 h
  cases outer with
  | nil => exact absurd rfl hfits.2
  | cons around rest =>
    obtain ⟨gathered, place', skipped'⟩ := around
    cases gathered with
    | array items | member name' => exact absurd rfl hfits.2.1
    | object members names =>
      obtain ⟨_, seen, hname, hplace, rfl, hseen, -⟩ := hfits
      cases hname
      obtain ⟨-, htidy, -⟩ := stacked_cons_iff.1 houter
      exact ⟨hplace, members, seen, place', skipped', rest, rfl, hseen,
        (List.nodup_cons.1 htidy.2).1⟩

namespace Assembly

variable {limit : Nat} {tallies : List Tally} {a : Assembly}

theorem ordered_empty (limit : Nat) : ({} : Assembly).Ordered limit [] where
  stacked := .nil
  path_eq := rfl
  depth_eq := rfl
  depth_le := Nat.zero_le limit
  tally_eq := rfl
  document_eq h := absurd rfl h

namespace Ordered

theorem push (f : Frame) (depth : Nat) (h : a.Ordered limit tallies) (hfits : f.Fits a.frames)
    (htidy : f.contents.Tidy) (hdocument : a.document = none)
    (hdepth : depth = a.depth + if f.contents.kind.isContainer then 1 else 0)
    (hle : depth ≤ limit) :
    ({ a with
      frames := f :: a.frames
      path := a.path ++ f.place.segment?.toList
      depth } : Assembly).Ordered limit (f.contents.tally?.toList ++ tallies) where
  stacked := .cons hfits htidy h.stacked
  path_eq := by
    dsimp only
    rw [h.path_eq, List.reverse_cons, List.filterMap_append]
    cases hsegment : f.place.segment? <;> simp [hsegment]
  depth_eq := by
    dsimp only
    rw [hdepth, h.depth_eq, List.countP_cons]
  depth_le := hle
  tally_eq := by
    rw [← h.tally_eq]
    cases htally : f.contents.tally? <;> simp [htally]
  document_eq _ := hdocument

theorem gather {contents : Contents} {place : Place} {skipped : Bool} {outer : List Frame}
    (contents' : Contents) (h : a.Ordered limit tallies)
    (hframes : a.frames = ⟨contents, place, skipped⟩ :: outer)
    (hkind : contents'.kind = contents.kind) (hmember : contents.kind ≠ .member)
    (htidy : contents'.Tidy) :
    ({ a with frames := ⟨contents', place, skipped⟩ :: outer } : Assembly).Ordered limit
      (contents'.tally?.toList ++ outer.filterMap (·.contents.tally?)) where
  stacked := by
    have hstacked := h.stacked
    rw [hframes] at hstacked
    obtain ⟨hfits, -, houter⟩ := stacked_cons_iff.1 hstacked
    exact .cons (hfits.congr hkind hmember) htidy houter
  path_eq := by
    rw [h.path_eq, hframes]
    simp only [List.reverse_cons, List.filterMap_append, List.filterMap_cons, List.filterMap_nil]
  depth_eq := by
    rw [h.depth_eq, hframes]
    simp only [List.countP_cons, hkind]
  depth_le := h.depth_le
  tally_eq := by cases htally : contents'.tally? <;> simp [htally]
  document_eq _ := h.document_eq (by rw [hframes]; exact List.cons_ne_nil _ _)

theorem pop {f : Frame} {outer : List Frame} (depth : Nat) (h : a.Ordered limit tallies)
    (hframes : a.frames = f :: outer)
    (hdepth : depth = a.depth - if f.contents.kind.isContainer then 1 else 0) :
    (({ a with frames := outer, depth } : Assembly).ascend f.place).Ordered limit
      (outer.filterMap (·.contents.tally?)) where
  stacked := by
    have hstacked := h.stacked
    rw [hframes] at hstacked
    exact (stacked_cons_iff.1 hstacked).2.2
  path_eq := by
    have hpath := h.path_eq
    rw [hframes, List.reverse_cons, List.filterMap_append] at hpath
    simp only [ascend]
    cases hsegment : f.place.segment? with
    | none => simpa [hsegment] using hpath
    | some segment => simp [hpath, hsegment]
  depth_eq := by
    have hcount := h.depth_eq
    rw [hframes, List.countP_cons] at hcount
    simp only [ascend]
    omega
  depth_le := by
    have hle := h.depth_le
    simp only [ascend]
    omega
  tally_eq := rfl
  document_eq _ := h.document_eq (by rw [hframes]; exact List.cons_ne_nil _ _)

theorem document_eq_none {place : Place} (h : a.Ordered limit tallies)
    (hplace : a.nextPlace? = some place) : a.document = none := by
  obtain ⟨frames, path, depth, document⟩ := a
  cases frames with
  | nil =>
    cases document with
    | none => rfl
    | some v => cases hplace
  | cons => exact h.document_eq (List.cons_ne_nil _ _)

end Ordered

theorem fits_of_nextPlace {contents : Contents} {place : Place} {skipped : Bool}
    (hplace : a.nextPlace? = some place) (hkind : contents.kind ≠ .member)
    (hskip : a.isSkipping → skipped) : Frame.Fits ⟨contents, place, skipped⟩ a.frames := by
  obtain ⟨frames, path, depth, document⟩ := a
  cases frames with
  | nil =>
    cases document with
    | none =>
      cases hplace
      exact ⟨rfl, hkind⟩
    | some v => cases hplace
  | cons around outer =>
    obtain ⟨gathered, place', skipped'⟩ := around
    cases gathered with
    | array items | member name =>
      cases hplace
      exact ⟨rfl, hkind, hskip⟩
    | object members names => cases hplace

end Assembly

/-! ### Every token keeps the order -/

variable {σ : Type} {l : Listener σ} {r : σ → σ → Prop} {F : WalkError → Prop} {limit : Nat}
  {tallies : List Tally} {a : Assembly}

theorem Listener.behaves (l : Listener σ) : l.Behaves (fun _ _ => True) (fun _ => True) where
  refl _ := trivial
  trans _ _ _ _ _ := trivial
  onEnter _ _ := ⟨trivial, fun _ _ => trivial⟩
  onExit _ _ := ⟨trivial, fun _ _ => trivial⟩

/-- Nothing below a skipped node is reported, so nothing there is not skipped. -/
theorem Listener.Behaves.enterUnless_skipped (hl : l.Behaves r F) (skipped : Bool)
    (kind : NodeKind) (path : Path) :
    Ends r F (l.enterUnless skipped kind path) fun below => skipped → below := by
  cases skipped with
  | true => exact .pure hl.refl fun _ => rfl
  | false => exact (hl.enterUnless false kind path).mono (fun _ => id) fun _ _ => nofun

namespace AssemblyM

open Assembly.Ordered (push gather pop)

theorem ordered_deliver (hl : l.Behaves r F) (v : Value) (h : a.Ordered limit tallies) :
    Ends r F ((deliver l v).on a) (·.Ordered limit (Tally.receive tallies)) := by
  obtain ⟨frames, path, depth, document⟩ := a
  obtain rfl := h.tally_eq
  cases frames with
  | nil =>
    rw [on_deliver_nil rfl]
    refine .pure hl.refl ?_
    exact ⟨.nil, h.path_eq, h.depth_eq, h.depth_le, rfl, fun hne => absurd rfl hne⟩
  | cons f outer =>
    obtain ⟨contents, place, skipped⟩ := f
    cases contents with
    | array items =>
      rw [on_deliver_array rfl]
      refine .pure hl.refl ?_
      have hitems := gather (.array (items.push v)) h rfl rfl (ne_member_of_isContainer rfl) trivial
      simpa [Contents.tally?, Tally.receive] using hitems
    | object members names => exact .pure hl.refl h
    | member name =>
      obtain ⟨rfl, members, seen, place', skipped', rest, rfl, hseen, hname⟩ :=
        h.stacked.exists_object
      have hpop := pop depth h rfl rfl
      rw [on_deliver_member rfl]
      apply Ends.bind hl.trans (hl.leaveUnless _ _ _ _ _)
      intro left _
      cases left with
      | none => exact .pure hl.refl hpop
      | some v =>
        refine .pure hl.refl ?_
        have hnodup : (name :: seen).Nodup := (stacked_cons_iff.1 hpop.stacked).2.1.2
        have hkeys : (members.push (name, v)).toList.map Prod.fst ⊆ name :: seen := by
          rw [Array.toList_push, List.map_append, List.append_subset]
          exact ⟨List.Subset.trans hseen (List.subset_cons_self _ _), by simp⟩
        exact gather (.object (members.push (name, v)) (name :: seen)) hpop rfl rfl
          (ne_member_of_isContainer rfl) ⟨hkeys, hnodup⟩

theorem ordered_opening {found : TokenKind} {m : Move} (contents : Contents) (hl : l.Behaves r F)
    (h : a.Ordered limit tallies) (hkind : contents.kind.isContainer) (htidy : contents.Tidy)
    (hm : a.opening limit found contents = .ok m) :
    Ends r F (m.perform l a) (·.Ordered limit (contents.tally?.toList ++ tallies)) := by
  rw [Assembly.opening] at hm
  cases hplace : a.nextPlace? with
  | none =>
    rw [hplace] at hm
    cases hm
  | some place =>
    rw [hplace] at hm
    dsimp only at hm
    split at hm
    · cases hm
    · next hdepth =>
      cases hm
      apply Ends.bind hl.trans (hl.enterUnless_skipped _ _ _)
      intro skipped hskipped
      refine .pure hl.refl ?_
      have hmember := ne_member_of_isContainer hkind
      apply push ⟨contents, place, skipped⟩ (a.depth + 1) h
        (Assembly.fits_of_nextPlace hplace hmember hskipped) htidy (h.document_eq_none hplace)
      · rw [if_pos hkind]
      · exact Nat.not_lt.1 hdepth

theorem ordered_holding {found : TokenKind} {v : Value} {m : Move} (hl : l.Behaves r F)
    (h : a.Ordered limit tallies) (hm : a.holding found v = .ok m) :
    Ends r F (m.perform l a) (·.Ordered limit (Tally.receive tallies)) := by
  rw [Assembly.holding] at hm
  split at hm
  · cases hm
  · cases hm
    exact Ends.bind hl.trans (hl.enterUnless _ _ _) fun skipped _ =>
      Ends.bind hl.trans (hl.leaveUnless _ _ _ _ _) fun left _ => ordered_deliver hl _ h

theorem ordered_beginning {name : String} {m : Move} (hl : l.Behaves r F)
    (h : a.Ordered limit tallies) (hm : a.beginning name = .ok m) :
    Ends r F (m.perform l a) (·.Ordered limit (Tally.note name tallies)) := by
  rw [Assembly.beginning] at hm
  split at hm
  · next members names place skipped outer hframes =>
    split at hm
    · cases hm
    · next hname =>
      cases hm
      apply Ends.bind hl.trans (hl.enterUnless_skipped _ _ _)
      intro below hbelow
      refine .pure hl.refl ?_
      have htidy : (Contents.object members names).Tidy := by
        have hstacked := h.stacked
        rw [hframes] at hstacked
        exact (stacked_cons_iff.1 hstacked).2.1
      -- the object takes the name first, and then the member comes on top of it
      have hobject := gather (.object members (name :: names)) h hframes rfl
        (ne_member_of_isContainer rfl) ⟨List.Subset.trans htidy.1 (List.subset_cons_self _ _),
          List.nodup_cons.2 ⟨hname, htidy.2⟩⟩
      have hmember := push ⟨.member name, .member name, below⟩ a.depth hobject
        ⟨name, names, rfl, rfl, rfl, htidy.1, hbelow⟩ trivial
        (h.document_eq (by rw [hframes]; exact List.cons_ne_nil _ _)) rfl h.depth_le
      rw [← h.tally_eq, hframes]
      exact hmember
  · cases hm

theorem ordered_closes {kind : NodeKind} {contents : Contents} {place : Place} {skipped : Bool}
    {outer : List Frame} {v : Value} (hl : l.Behaves r F) (h : a.Ordered limit tallies)
    (hframes : a.frames = ⟨contents, place, skipped⟩ :: outer)
    (hkind : contents.kind.isContainer) (htally : contents.tally?.isSome) :
    Ends r F ((Move.closes kind place skipped outer v).perform l a)
      (·.Ordered limit (Tally.receive tallies.tail)) := by
  have hpop := pop (a.depth - 1) h hframes (by rw [if_pos hkind])
  have htail : tallies.tail = outer.filterMap (·.contents.tally?) := by
    obtain ⟨tally, htally⟩ := Option.isSome_iff_exists.1 htally
    rw [← h.tally_eq, hframes]
    simp only [List.filterMap_cons, htally, List.tail_cons]
  rw [htail]
  exact Ends.bind hl.trans (hl.leaveUnless _ _ _ _ _) fun left _ => ordered_deliver hl _ hpop

/-- Whatever the listener says, open nodes stay in order, with the tallies that the token makes. -/
theorem ordered_feed (hl : l.Behaves r F) (t : Token) (h : a.Ordered limit tallies) :
    Ends r (fun _ => True) ((feed l limit t).on a) (·.Ordered limit (Tally.step tallies t)) := by
  rw [on_feed]
  cases hm : a.move limit t with
  | error e => exact .throw hl.refl trivial
  | ok m =>
    have hends : Ends r F (m.perform l a) (·.Ordered limit (Tally.step tallies t)) := by
      cases t with
      | beginObject =>
        exact ordered_opening (.object #[] []) hl h rfl ⟨List.Subset.refl _, List.nodup_nil⟩ hm
      | beginArray => exact ordered_opening (.array #[]) hl h rfl trivial hm
      | name => exact ordered_beginning hl h hm
      | string | number | bool | null => exact ordered_holding hl h hm
      | endOfInput => cases hm
      | endObject =>
        rw [Assembly.move] at hm
        split at hm
        · next hframes =>
          cases hm
          exact ordered_closes hl h hframes rfl rfl
        · cases hm
      | endArray =>
        rw [Assembly.move] at hm
        split at hm
        · next hframes =>
          cases hm
          exact ordered_closes hl h hframes rfl rfl
        · cases hm
    exact hends.mono (fun _ _ => trivial) fun _ => id

end AssemblyM
end JsonWalk
