import TestImpact.FileTree.Edit
import TestImpact.Proofs.FileTree.Listing
import TestImpact.Proofs.FileTree.Place

/-!
# Taking a file away

Names lead to nothing where a file was taken away, and elsewhere to what they led to before, but to
a folder around the file without it (`Items.shell_at?_eraseAt`, `Items.exists_folder_eraseAt`). A
path goes its way as before unless it led to the file (`FileTree.placeOf_without`), so a walk starts
in the same folder or in what is left of it (`FileTree.exists_walkStart?_without`).
-/

namespace TestImpact

/-- What is known of an item without a look into it. -/
def Item.shell : Item → Item
  | .folder _ => .folder .empty
  | item => item

/-- The item at the end of a list of names that start at an item. -/
def Item.at? : Item → List String → Option Item
  | .folder inside, names => inside.at? names
  | item, [] => some item
  | _, _ :: _ => none

/-- Exactly the files look like files from outside. -/
theorem Item.shell_eq_file {item : Item} {bytes : List UInt8} :
    item.shell = .file bytes ↔ item = .file bytes := by
  cases item <;> simp [shell]

/-- Exactly the links look like links from outside. -/
theorem Item.shell_eq_link {item : Item} {target : String} :
    item.shell = .link target ↔ item = .link target := by
  cases item <;> simp [shell]

namespace Items

section
variable {f g : Items} {name other : String} {names more place : List String}
  {bytes b : List UInt8} {item : Item}

/-! ## Names in a changed folder -/

/-- The first name leads to an item, and the others lead on inside it. -/
theorem at?_cons_eq : f.at? (name :: names) = (f.find? name).bind (·.at? names) := by
  cases names with
  | nil =>
    rw [at?_singleton]
    cases f.find? name with
    | none => rfl
    | some item => cases item <;> rfl
  | cons s names =>
    cases hf : f.find? name with
    | none => simp [at?, hf]
    | some item => cases item <;> simp [at?, Item.at?, hf]

/-- Names lead on from a folder. -/
theorem at?_append_eq (h : f.at? names = some (.folder g)) :
    f.at? (names ++ more) = g.at? more := by
  induction names generalizing f with
  | nil =>
    cases h
    rfl
  | cons name names ih =>
    rw [at?_cons_eq] at h
    obtain ⟨item, hf, hi⟩ := Option.bind_eq_some_iff.1 h
    rw [List.cons_append, at?_cons_eq, hf, Option.bind_some]
    cases item with
    | folder inside => exact ih hi
    | file _ | link _ => cases names <;> cases hi

/-- Without a name, nothing is left behind it, and everything else stays. -/
theorem at?_erase :
    (f.erase name).at? (other :: names) =
      if name = other then none else f.at? (other :: names) := by
  rw [at?_cons_eq, at?_cons_eq, find?_erase]
  split <;> rfl

/-- With an item put in, its name leads into it, and everything else stays. -/
theorem at?_put :
    (f.put name item).at? (other :: names) =
      if name = other then item.at? names else f.at? (other :: names) := by
  rw [at?_cons_eq, at?_cons_eq, find?_put]
  split <;> rfl

/-! ## Names after a file has been taken away -/

/-- On the way to a file below it, a folder has the folder on the way changed. -/
theorem eraseAt_cons (hn : names ≠ []) (hf : f.find? name = some (.folder g)) :
    f.eraseAt (name :: names) = f.put name (.folder (g.eraseAt names)) := by
  cases names with
  | nil => exact absurd rfl hn
  | cons s names => simp [eraseAt, hf]

/-- A file is in a folder or below a folder in it. -/
theorem file_cases (h : f.at? (name :: names) = some (.file bytes)) :
    (names = [] ∧ f.find? name = some (.file bytes)) ∨
      names ≠ [] ∧ ∃ g, f.find? name = some (.folder g) ∧ g.at? names = some (.file bytes) := by
  by_cases hn : names = []
  · subst hn
    exact .inl ⟨rfl, at?_singleton.symm.trans h⟩
  · exact .inr ⟨hn, (at?_cons hn).1 h⟩

/-- Nothing is left where the file was, and everything else is what it was. -/
theorem shell_at?_eraseAt (h : f.at? place = some (.file bytes)) (names : List String) :
    ((f.eraseAt place).at? names).map Item.shell =
      if names = place then none else (f.at? names).map Item.shell := by
  induction place generalizing f names with
  | nil => cases h
  | cons name place ih =>
    cases names with
    | nil => exact (if_neg (List.cons_ne_nil _ _).symm).symm
    | cons other names =>
      rcases file_cases h with ⟨rfl, hf⟩ | ⟨hn, g, hf, hg⟩
      · rw [eraseAt, at?_erase]
        by_cases hname : name = other
        · subst hname
          rw [if_pos rfl, at?_cons_eq, hf]
          cases names with
          | nil => exact (if_pos rfl).symm
          | cons s names => exact (ite_self _).symm
        · rw [if_neg hname, if_neg fun he => hname (List.cons.inj he).1.symm]
      · rw [eraseAt_cons hn hf, at?_put]
        by_cases hname : name = other
        · subst hname
          rw [if_pos rfl, at?_cons_eq, hf, Option.bind_some]
          simp only [List.cons.injEq, true_and]
          exact ih hg names
        · rw [if_neg hname, if_neg fun he => hname (List.cons.inj he).1.symm]

/-- The files that are left are the others. -/
theorem at?_eraseAt_eq_file (h : f.at? place = some (.file bytes)) :
    (f.eraseAt place).at? names = some (.file b) ↔
      f.at? names = some (.file b) ∧ names ≠ place := by
  have hfile : ∀ i : Option Item, i = some (.file b) ↔ i.map Item.shell = some (.file b) := by
    intro i
    cases i <;> simp [Item.shell_eq_file]
  rw [hfile ((f.eraseAt place).at? names), hfile (f.at? names), shell_at?_eraseAt h]
  split
  · next he => simp [he]
  · next hne => simp [hne]

/-- `g` is `f`, or what is left of it without one file of the given bytes. -/
def LosesFile (bytes : List UInt8) (f g : Items) : Prop :=
  g = f ∨ ∃ place, f.at? place = some (.file bytes) ∧ g = f.eraseAt place

/-- The folders that are left are the folders that were there, up to the file. -/
theorem exists_folder_eraseAt (h : f.at? place = some (.file bytes))
    (hg : f.at? names = some (.folder g)) :
    ∃ g', (f.eraseAt place).at? names = some (.folder g') ∧ LosesFile bytes g g' := by
  induction place generalizing f names with
  | nil => cases h
  | cons name place ih =>
    cases names with
    | nil =>
      cases hg
      exact ⟨_, rfl, .inr ⟨_, h, rfl⟩⟩
    | cons other names =>
      by_cases hname : name = other
      · subst hname
        rw [at?_cons_eq] at hg
        rcases file_cases h with ⟨rfl, hf⟩ | ⟨hn, inside, hf, hi⟩
        · rw [hf] at hg
          cases names <;> cases hg
        · rw [hf] at hg
          rw [eraseAt_cons hn hf, at?_put, if_pos rfl]
          exact ih hi hg
      · refine ⟨g, ?_, .inl rfl⟩
        rcases file_cases h with ⟨rfl, -⟩ | ⟨hn, inside, hf, -⟩
        · rw [eraseAt, at?_erase, if_neg hname, hg]
        · rw [eraseAt_cons hn hf, at?_put, if_neg hname, hg]

/-- No folder is left that was not there. -/
theorem exists_folder_of_eraseAt (h : f.at? place = some (.file bytes))
    (hg : (f.eraseAt place).at? names = some (.folder g)) :
    ∃ g', f.at? names = some (.folder g') := by
  have hshell := shell_at?_eraseAt h names
  rw [hg] at hshell
  split at hshell
  · cases hshell
  · obtain ⟨item, hat, hi⟩ := Option.map_eq_some_iff.1 hshell.symm
    cases item with
    | folder g' => exact ⟨g', hat⟩
    | file _ | link _ => cases hi

/-- What is left is well named. -/
theorem LosesFile.wellNamed (hf : f.WellNamed) (h : LosesFile bytes f g) : g.WellNamed := by
  rcases h with rfl | ⟨place, -, rfl⟩
  · exact hf
  · exact hf.eraseAt place

end

end Items

namespace FileTree

section
variable {t : FileTree} {top inside : Items} {links : Nat} {place start names found : List String}
  {last : PathEnd} {p root : Path} {bytes : List UInt8} {step : String} {counts : Bool}

/-! ## Paths after a file has been taken away -/

/-- A target that has to exist is not one that may be missing. -/
theorem target_ne_fresh : PathEnd.target ≠ .fresh := nofun

/-- An item itself is not one that may be missing. -/
theorem itself_ne_fresh : PathEnd.itself ≠ .fresh := nofun

/-- What a folder on the way holds after a file has been taken away: links as before, nothing where
nothing or the file was, and something that is no link where other items were. -/
theorem exists_inside_eraseAt (h : top.at? place = some (.file bytes))
    (hat : top.at? start = some (.folder inside)) (step : String) :
    ∃ inside', (top.eraseAt place).at? start = some (.folder inside') ∧
      (inside.find? step = none ∨ start ++ [step] = place → inside'.find? step = none) ∧
      (∀ target, inside.find? step = some (.link target) →
        inside'.find? step = some (.link target)) ∧
      ∀ item, inside.find? step = some item → (∀ target, item ≠ .link target) →
        start ++ [step] ≠ place →
        ∃ item', inside'.find? step = some item' ∧ ∀ target, item' ≠ .link target := by
  obtain ⟨inside', hat', -⟩ := Items.exists_folder_eraseAt h hat
  have hfind : (inside'.find? step).map Item.shell =
      if start ++ [step] = place then none else (inside.find? step).map Item.shell := by
    rw [← Items.at?_singleton, ← Items.at?_singleton, ← Items.at?_append_eq hat',
      ← Items.at?_append_eq hat]
    exact Items.shell_at?_eraseAt h (start ++ [step])
  refine ⟨inside', hat', ?_, fun target hf => ?_, fun item hf hl hne => ?_⟩
  · rintro (hf | he)
    · rw [hf, Option.map_none, ite_self] at hfind
      exact Option.map_eq_none_iff.1 hfind
    · rw [if_pos he] at hfind
      exact Option.map_eq_none_iff.1 hfind
  · have hne : start ++ [step] ≠ place := by
      rintro rfl
      rw [Items.at?_append_eq hat, Items.at?_singleton, hf] at h
      cases h
    rw [if_neg hne, hf] at hfind
    obtain ⟨item', hf', hshell⟩ := Option.map_eq_some_iff.1 hfind
    rw [hf', Item.shell_eq_link.1 hshell]
  · rw [if_neg hne, hf] at hfind
    obtain ⟨item', hf', hshell⟩ := Option.map_eq_some_iff.1 hfind
    refine ⟨item', hf', fun target he => ?_⟩
    subst he
    exact hl target (Item.shell_eq_link.1 hshell.symm)

/-- A path that is followed leads where it led before, unless that was the file. -/
theorem follow_eraseAt (h : top.at? place = some (.file bytes)) (hlast : last ≠ .fresh)
    (hs : names = [] → start ≠ place) :
    follow (top.eraseAt place) links start last names = .ok found ↔
      follow top links start last names = .ok found ∧ found ≠ place := by
  have hfolder : ∀ {names : List String} {inside : Items},
      top.at? names = some (.folder inside) → names ≠ place := by
    rintro names inside hat rfl
    rw [h] at hat
    cases hat
  -- The cases are those of a path's end, a blank step, `..`, a long name, nothing there, a link at
  -- the end, a link too many, a link that is followed, any other item, and no folder at hand.
  fun_induction follow top links start last names
  case case1 place' =>
    rw [follow]
    refine ⟨fun he => ⟨he, ?_⟩, And.left⟩
    cases he
    exact hs rfl
  case case2 hat hblank ih =>
    obtain ⟨inside', hat', -⟩ := exists_inside_eraseAt h hat ""
    rw [follow, hat']
    simp only [hblank, if_true]
    exact ih fun _ => hfolder hat
  case case3 hat hblank ih =>
    obtain ⟨inside', hat', -⟩ := exists_inside_eraseAt h hat ""
    obtain ⟨g, hg⟩ := at?_dropLast hat
    rw [follow, hat']
    simp only [hblank, if_true, if_false]
    exact ih fun _ => hfolder hg
  case case4 hat hblank hup hlong =>
    obtain ⟨inside', hat', -⟩ := exists_inside_eraseAt h hat ""
    rw [follow, hat']
    simp [hblank, hup, hlong]
  case case5 hend => exact absurd hend.2 hlast
  case case6 step _ _ hat hblank hup hlong hf hend =>
    obtain ⟨inside', hat', hnone, -⟩ := exists_inside_eraseAt h hat step
    rw [follow, hat']
    simp [hblank, hup, hlong, hnone (.inl hf), hend]
  case case7 step _ _ hat hblank hup hlong target hf hend =>
    obtain ⟨inside', hat', -, hlink, -⟩ := exists_inside_eraseAt h hat step
    rw [follow, hat']
    simp only [hblank, hup, hlong, hlink target hf, hend, if_true, if_false, and_self]
    refine ⟨fun he => ⟨he, ?_⟩, And.left⟩
    rintro rfl
    cases he
    rw [Items.at?_append_eq hat, Items.at?_singleton, hf] at h
    cases h
  case case8 step _ _ hat hblank hup hlong target hf hend =>
    obtain ⟨inside', hat', -, hlink, -⟩ := exists_inside_eraseAt h hat step
    rw [follow, hat']
    simp [hblank, hup, hlong, hlink target hf, hend]
  case case9 step _ _ hat hblank hup hlong target hf hend n ih =>
    obtain ⟨inside', hat', -, hlink, -⟩ := exists_inside_eraseAt h hat step
    rw [follow, hat']
    simp only [hblank, hup, hlong, hlink target hf, hend, if_false]
    exact ih fun he => absurd (List.append_eq_nil_iff.1 he).1 (steps_ne_nil _)
  case case10 start step rest _ hat hblank hup hlong item hl hf ih =>
    obtain ⟨inside', hat', hnone, -, hother⟩ := exists_inside_eraseAt h hat step
    rw [follow, hat']
    by_cases he : start ++ [step] = place
    · -- The path comes to the file, where it ends or cannot go on.
      subst he
      simp only [hblank, hup, hlong, hnone (.inr rfl), hlast, and_false, if_false]
      refine iff_of_false (by simp) ?_
      rintro ⟨hfound, hne⟩
      cases rest with
      | nil =>
        rw [follow] at hfound
        cases hfound
        exact hne rfl
      | cons s rest =>
        refine follow_ne_ok (fun g hg => ?_) hfound
        rw [h] at hg
        cases hg
    · obtain ⟨item', hf', hl'⟩ := hother item hf hl he
      simp only [hblank, hup, hlong, hf', if_false]
      exact ih fun _ => he
  case case11 item hl hat =>
    refine iff_of_false (follow_ne_ok fun g hg => ?_) (by simp)
    obtain ⟨g', hg'⟩ := Items.exists_folder_of_eraseAt h hg
    exact hl g' (Option.some.inj (hat.symm.trans hg'))
  case case12 hat =>
    refine iff_of_false (follow_ne_ok fun g hg => ?_) (by simp)
    obtain ⟨g', hg'⟩ := Items.exists_folder_of_eraseAt h hg
    cases hat.symm.trans hg'

/-- The tree without the file at a place. -/
def without (t : FileTree) (place : List String) : FileTree :=
  { t with disk := t.disk.eraseAt place }

/-- Taking away the file that a path leads to. -/
theorem remove_eq (h : t.placeOf p .itself = .ok place) : t.remove p = t.without place := by
  rw [remove, h]
  rfl

/-- The place of a file that a path leads to. -/
theorem exists_place_of_file (h : t.itemItself? p = some (.file bytes)) :
    ∃ place, t.placeOf p .itself = .ok place ∧ t.top.at? place = some (.file bytes) := by
  rw [itemItself?] at h
  cases hp : t.placeOf p .itself with
  | error why => rw [hp] at h; cases h
  | ok place =>
    rw [hp] at h
    exact ⟨place, rfl, h⟩

/-- A path leads where it led before, unless that was the file. -/
theorem placeOf_without (h : t.top.at? place = some (.file bytes)) (hlast : last ≠ .fresh) :
    (t.without place).placeOf p last = .ok found ↔
      t.placeOf p last = .ok found ∧ found ≠ place := by
  rw [placeOf, placeOf]
  split
  · simp
  split
  · simp
  split
  · simp
  · exact follow_eraseAt h hlast fun he => absurd he (steps_ne_nil _)

/-- A canonical path is that of the place where the path leads to. -/
theorem canonical_eq_ok :
    t.canonical p = .ok root ↔ ∃ found, t.placeOf p .target = .ok found ∧ pathOf found = root := by
  rw [canonical]
  cases t.placeOf p .target <;> simp [Except.map]

/-- A path has the canonical form that it had, unless it led to the file. -/
theorem canonical_without (h : t.top.at? place = some (.file bytes)) :
    (t.without place).canonical p = .ok root ↔
      t.canonical p = .ok root ∧ t.placeOf p .target ≠ .ok place := by
  simp only [canonical_eq_ok, placeOf_without h target_ne_fresh]
  refine ⟨?_, ?_⟩
  · rintro ⟨found, ⟨hp, hne⟩, hr⟩
    refine ⟨⟨found, hp, hr⟩, fun hplace => hne ?_⟩
    rw [hp] at hplace
    cases hplace
    rfl
  · rintro ⟨⟨found, hp, hr⟩, hplace⟩
    exact ⟨found, ⟨hp, fun he => hplace (he ▸ hp)⟩, hr⟩

/-! ## Items after a file has been taken away -/

/-- What a path leads to. -/
def itemOf (t : FileTree) (last : PathEnd) (p : Path) : Option Item :=
  (t.placeOf p last).toOption.bind t.top.at?

/-- With links followed to the end, this is the item of a path. -/
theorem itemOf_target : t.itemOf .target p = t.item? p := rfl

/-- Without the last link followed, this is the item itself. -/
theorem itemOf_itself : t.itemOf .itself p = t.itemItself? p := rfl

/-- A path leads to an item exactly if it leads to a place that holds it. -/
theorem itemOf_eq_some {item : Item} :
    t.itemOf last p = some item ↔
      ∃ found, t.placeOf p last = .ok found ∧ t.top.at? found = some item := by
  rw [itemOf]
  cases t.placeOf p last with
  | error why => simp [Except.toOption]
  | ok found => simp [Except.toOption]

/-- Where no folder was, no folder is left. -/
theorem exists_folder_of_without (h : t.top.at? place = some (.file bytes))
    (hg : (t.without place).itemOf last p = some (.folder inside)) (hlast : last ≠ .fresh) :
    ∃ g, t.itemOf last p = some (.folder g) := by
  obtain ⟨found, hp, hat⟩ := itemOf_eq_some.1 hg
  obtain ⟨g, hg⟩ := Items.exists_folder_of_eraseAt h hat
  exact ⟨g, itemOf_eq_some.2 ⟨found, ((placeOf_without h hlast).1 hp).1, hg⟩⟩

/-- Where a folder was, it is left, up to the file. -/
theorem exists_folder_without (h : t.top.at? place = some (.file bytes))
    (hg : t.itemOf last p = some (.folder inside)) (hlast : last ≠ .fresh) :
    ∃ g, (t.without place).itemOf last p = some (.folder g) ∧ inside.LosesFile bytes g := by
  obtain ⟨found, hp, hat⟩ := itemOf_eq_some.1 hg
  obtain ⟨g, hat', hl⟩ := Items.exists_folder_eraseAt h hat
  have hne : found ≠ place := by
    rintro rfl
    cases h.symm.trans hat
  exact ⟨g, itemOf_eq_some.2 ⟨found, (placeOf_without h hlast).2 ⟨hp, hne⟩, hat'⟩, hl⟩

/-- Links are left as they were. -/
theorem itemOf_without_eq_link {target : String} (h : t.top.at? place = some (.file bytes)) :
    (t.without place).itemOf .itself p = some (.link target) ↔
      t.itemOf .itself p = some (.link target) := by
  have hlink : ∀ i : Option Item,
      i = some (.link target) ↔ i.map Item.shell = some (.link target) := by
    intro i
    cases i <;> simp [Item.shell_eq_link]
  rw [itemOf_eq_some, itemOf_eq_some]
  refine exists_congr fun found => ?_
  rw [placeOf_without h itself_ne_fresh, and_assoc]
  refine and_congr_right fun _ => ?_
  rw [hlink (t.top.at? found), hlink ((t.without place).top.at? found)]
  show _ ∧ ((t.top.eraseAt place).at? found).map _ = _ ↔ _
  rw [Items.shell_at?_eraseAt h]
  by_cases hf : found = place
  · rw [hf, h]
    simp [Item.shell]
  · simp [hf]

/-- A path is a folder exactly if it leads to one. -/
theorem isFolder_eq_true : t.isFolder p = true ↔ ∃ g, t.itemOf .target p = some (.folder g) := by
  rw [isFolder, ← itemOf_target]
  split
  · next g hg => exact iff_of_true rfl ⟨g, hg⟩
  · next hno => exact iff_of_false Bool.false_ne_true (not_exists.2 hno)

/-- Folders stay folders, and nothing becomes one. -/
theorem isFolder_without (h : t.top.at? place = some (.file bytes)) :
    (t.without place).isFolder p = t.isFolder p := by
  rw [Bool.eq_iff_iff, isFolder_eq_true, isFolder_eq_true]
  refine ⟨?_, ?_⟩
  · rintro ⟨g, hg⟩
    exact exists_folder_of_without h hg target_ne_fresh
  · rintro ⟨g, hg⟩
    obtain ⟨g', hg', -⟩ := exists_folder_without h hg target_ne_fresh
    exact ⟨g', hg'⟩

/-- A walk starts at a folder, which counts as found unless a link leads to it. -/
theorem walkStart?_eq_some :
    t.walkStart? root = some (inside, counts) ↔
      (counts = true ∧ t.itemOf .itself root = some (.folder inside)) ∨
        (counts = false ∧ t.itemOf .target root = some (.folder inside) ∧
          ∃ target, t.itemOf .itself root = some (.link target)) := by
  rw [walkStart?, ← itemOf_target, ← itemOf_itself]
  cases t.itemOf .itself root with
  | none => simp
  | some item =>
    cases item with
    | file b => simp
    | folder g => simp [and_comm, eq_comm]
    | link target =>
      cases t.itemOf .target root with
      | none => simp
      | some found => cases found <;> simp [and_comm, eq_comm]

/-- A walk starts in a folder of the tree. -/
theorem exists_of_walkStart? (hw : t.walkStart? root = some (inside, counts)) :
    ∃ place, t.top.at? place = some (.folder inside) := by
  have hi : ∃ last, t.itemOf last root = some (.folder inside) := by
    rcases walkStart?_eq_some.1 hw with ⟨-, hi⟩ | ⟨-, hi, -⟩
    · exact ⟨_, hi⟩
    · exact ⟨_, hi⟩
  obtain ⟨last, hi⟩ := hi
  obtain ⟨found, -, hat⟩ := itemOf_eq_some.1 hi
  exact ⟨found, hat⟩

/-- The folder that a walk starts at is well named. -/
theorem wellNamed_of_walkStart? (hw : t.walkStart? root = some (inside, counts)) :
    inside.WellNamed := by
  obtain ⟨place, hat⟩ := exists_of_walkStart? hw
  exact (t.wellNamed_top.of_at? hat).2

/-- A walk starts in the same folder or in what is left of it. -/
theorem exists_walkStart?_without (h : t.top.at? place = some (.file bytes))
    (hw : t.walkStart? root = some (inside, counts)) :
    ∃ g, (t.without place).walkStart? root = some (g, counts) ∧ inside.LosesFile bytes g := by
  rcases walkStart?_eq_some.1 hw with ⟨rfl, hi⟩ | ⟨rfl, hi, target, ht⟩
  · obtain ⟨g, hg, hl⟩ := exists_folder_without h hi itself_ne_fresh
    exact ⟨g, walkStart?_eq_some.2 (.inl ⟨rfl, hg⟩), hl⟩
  · obtain ⟨g, hg, hl⟩ := exists_folder_without h hi target_ne_fresh
    exact ⟨g, walkStart?_eq_some.2
      (.inr ⟨rfl, hg, target, (itemOf_without_eq_link h).2 ht⟩), hl⟩

/-- Where no walk started, none starts. -/
theorem walkStart?_without_eq_none (h : t.top.at? place = some (.file bytes))
    (hw : t.walkStart? root = none) : (t.without place).walkStart? root = none := by
  rw [Option.eq_none_iff_forall_ne_some] at hw ⊢
  rintro ⟨inside, counts⟩ hs
  rcases walkStart?_eq_some.1 hs with ⟨rfl, hi⟩ | ⟨rfl, hi, target, ht⟩
  · obtain ⟨g, hg⟩ := exists_folder_of_without h hi itself_ne_fresh
    exact hw (g, true) (walkStart?_eq_some.2 (.inl ⟨rfl, hg⟩))
  · obtain ⟨g, hg⟩ := exists_folder_of_without h hi target_ne_fresh
    exact hw (g, false) (walkStart?_eq_some.2
      (.inr ⟨rfl, hg, target, (itemOf_without_eq_link h).1 ht⟩))

end

end FileTree

end TestImpact
