import ReverseLisp.Error
import ReverseLisp.Path
import ReverseLisp.Text.Blank

/-!
# The library

Programs that a session loads before anything else: arithmetic by name, recursive functions with
and without a fixed-point combinator, and numerals and pairs made of functions. A setting may name
a directory whose files take the place of these texts.
-/

namespace ReverseLisp.Prelude

/-- Functions of one step. -/
def arithmetic : String :=
"(def add1
  (fun (x)
    (+ x 1)))

(def sub1
  (fun (x)
    (- x 1)))

(def addn
  (fun (n)
    (fun (z)
      (+ z n))))
"

/-- Fibonacci and triangular numbers, and recursion without names. -/
def recursive : String :=
"(def fib_rec
  (fun (n)
    (if (< n 2)
        n
        (+ (fib_rec (- n 1))
           (fib_rec (- n 2))))))

(def fib_it
  (fun (n)
    (def loop
      (fun (a b count)
        (if (= (add1 count) n)
            b
            (loop b
                  (+ a b)
                  (add1 count)))))
    (loop 0 1 0)))

(def triangular
  (fun (n)
    (if (< n 2)
        n
        (+ n
           (triangular (sub1 n))))))

(def Y
  (fun (y)
    ((fun (f)
       (f f))
     (fun (g)
       (y (fun (x)
            ((g g) x)))))))

(def tri
  (fun (t)
    (fun (n)
      (if (< n 2)
          n
          (+ n
             (t (sub1 n)))))))

(def tri_tri
  ((fun (f)
     (f f))
   (fun (t)
     (fun (n)
       (if (< n 2)
           n
           (+ n
              ((t t) (sub1 n))))))))
"

/-- Numerals and pairs as functions. -/
def church : String :=
"(def church
  (fun (n)
    ((n add1) 0)))

(def cons_
  (fun (a b)
    (fun (m)
      (m a b))))

(def car_
  (fun (p)
    (p (fun (a b)
         a))))

(def cdr_
  (fun (p)
    (p (fun (a b)
         b))))

(def zero_
  (fun (f)
    (fun (x)
      x)))

(def inc
  (fun (n)
    (fun (f)
      (fun (x)
        (f ((n f) x))))))
"

/-- The texts of the library, in the order of loading. -/
def bundled : List String := [arithmetic, recursive, church]

/-- The names of library files, in the order of loading. -/
def fileNames : List String := ["arithmetic.rtl", "recursive.rtl", "church.rtl"]

/-- The directory that a setting names: itself, or the one that holds it if it is no directory. -/
def root (isDirectory : Path → Bool) (raw : String) : Path :=
  let p := Path.ofText (String.ofList (Text.trim raw.toList))
  if isDirectory p then p else p.parent

/-- Where library files are looked for. -/
def paths (root : Path) : List Path := fileNames.map root.child

/-- The library files that were found; there has to be one. -/
def select (root : Path) (found : List (Option String)) : Except Error (List String) :=
  match found.filterMap id with
  | [] => .error (.noLibrary root.text)
  | texts => .ok texts

/-- The library files of a directory. -/
def ofDirectory (t : FileTree) (root : Path) : Except Error (List String) :=
  select root ((paths root).map t.text?)

/-- The library that a setting asks for. An empty setting counts as none. -/
def ofSetting (t : FileTree) (raw : Option String) : Except Error (List String) :=
  match raw with
  | none | some "" => .ok bundled
  | some raw => ofDirectory t (root t.isDirectory raw)

end ReverseLisp.Prelude
