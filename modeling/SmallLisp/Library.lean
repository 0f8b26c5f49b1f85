import SmallLisp.Text.Bytes

/-! The libraries that are part of the interpreter, written in the language itself. -/
namespace SmallLisp.Library

/-- Control macros and functions on lists, for every namespace. -/
def core : String :=
  "; core library, imported by every namespace
(in-ns core)

(defmacro defn (function (name & decl)
  `(def ~name (function ~@decl))))

(defmacro when (function (c & body)
  `(if ~c (do ~@body))))

(defmacro unless (function (c & body)
  `(if ~c nil (do ~@body))))

(defmacro cond (function (& clauses)
  (if (empty? clauses)
    nil
    `(if ~(first clauses)
       ~(nth clauses 1)
       (cond ~@(rest (rest clauses)))))))

(defmacro and (function (& xs)
  (if (empty? xs)
    true
    (if (empty? (rest xs))
      (first xs)
      `(if ~(first xs) (and ~@(rest xs)) false)))))

(defmacro or (function (& xs)
  (if (empty? xs)
    false
    (if (empty? (rest xs))
      (first xs)
      (let (g (gensym \"or__\"))
        `(let (~g ~(first xs))
           (if ~g ~g (or ~@(rest xs)))))))))

(defn identity (x) x)
(defn inc \"x plus one\" (x) (+ x 1))
(defn dec \"x minus one\" (x) (- x 1))
(defn second (l) (first (rest l)))

(defn reduce \"folds f over l starting from init\" (f init l)
  (if (empty? l)
    init
    (reduce f (f init (first l)) (rest l))))

(defn map \"applies f to every element of l\" (f l)
  (let (step (function (l acc)
               (if (empty? l)
                 (reverse acc)
                 (step (rest l) (cons (f (first l)) acc)))))
    (step l ())))

(defn filter \"the elements of l for which pred holds\" (pred l)
  (let (step (function (l acc)
               (if (empty? l)
                 (reverse acc)
                 (step (rest l) (if (pred (first l)) (cons (first l) acc) acc)))))
    (step l ())))

(defn range \"the ints from 0 below n\" (n)
  (let (step (function (i acc)
               (if (< i 0)
                 acc
                 (step (- i 1) (cons i acc)))))
    (step (- n 1) ())))
"

def math : String :=
  "(in-ns math)

(defn square (x) (* x x))

(defn max (x & xs)
  (reduce (function (m y) (if (> y m) y m)) x xs))

(defn min (x & xs)
  (reduce (function (m y) (if (< y m) y m)) x xs))

(defn even? (n) (== (mod n 2) 0))
(defn odd? (n) (not (even? n)))
"

def string : String :=
  "(in-ns string)

(defn blank? (s) (empty? (trim s)))

(defn repeat (s n)
  (join (map (function (_) s) (range n)) \"\"))
"

/-- The text of a library. -/
def source? (name : Bytes) : Option Bytes :=
  if name == Bytes.ofString "core" then some (Bytes.ofString core)
  else if name == Bytes.ofString "math" then some (Bytes.ofString math)
  else if name == Bytes.ofString "string" then some (Bytes.ofString string)
  else none

/-- Every library, in an order in which they can be loaded. -/
def all : List Bytes := [Bytes.ofString "core", Bytes.ofString "math", Bytes.ofString "string"]

end SmallLisp.Library
