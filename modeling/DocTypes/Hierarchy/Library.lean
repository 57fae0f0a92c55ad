namespace DocTypes.Library

/-- The predefined class-likes and their immediate supertypes. -/
def classes : List (String × List String) := [
  -- predefined general
  ("\\ArrayAccess", []),
  ("\\BackedEnum", ["\\UnitEnum"]),
  ("\\Closure", ["callable"]),
  ("\\Directory", []),
  ("\\Fiber", []),
  ("\\php_user_filter", []),
  ("\\SensitiveParameterValue", []),
  ("\\Serializable", []),
  ("\\stdClass", []),
  ("\\Stringable", []),
  ("\\UnitEnum", []),
  ("\\WeakReference", []),
  -- iterables
  ("\\Generator", ["\\Iterator"]),
  ("\\InternalIterator", ["\\Iterator"]),
  ("\\Iterator", ["\\Traversable"]),
  ("\\IteratorAggregate", ["\\Traversable"]),
  ("\\Traversable", ["iterable"]),
  ("\\WeakMap", ["\\ArrayAccess", "\\Countable", "\\Iteratoraggregate"]),
  -- throwables
  ("\\ArithmeticError", ["\\Error"]),
  ("\\AssertionError", ["\\Error"]),
  ("\\CompileError", ["\\Error"]),
  ("\\DivisionByZeroError", ["\\ArithmeticError"]),
  ("\\Error", ["\\Throwable"]),
  ("\\ErrorException", ["\\Exception"]),
  ("\\Exception", ["\\Throwable"]),
  ("\\ParseError", ["\\CompileError"]),
  ("\\Throwable", ["\\Stringable"]),
  ("\\TypeError", ["\\Error"]),
  -- SPL data structures
  ("\\SplDoublyLinkedList", ["\\Iterator", "\\Countable", "\\ArrayAccess", "\\Serializable"]),
  ("\\SplStack", ["\\SplDoublyLinkedList"]),
  ("\\SplQueue", ["\\SplDoublyLinkedList"]),
  ("\\SplHeap", ["\\Iterator", "\\Countable"]),
  ("\\SplMaxHeap", ["\\SplHeap"]),
  ("\\SplMinHeap", ["\\SplHeap"]),
  ("\\SplPriorityQueue", ["\\Iterator", "\\Countable"]),
  ("\\SplFixedArray",
    ["\\IteratorAggregate", "\\ArrayAccess", "\\Countable", "\\JsonSerializable"]),
  ("\\Splobjectstorage", ["\\Countable", "\\Iterator", "\\Serializable", "\\Arrayaccess"]),
  -- SPL iterators
  ("\\AppendIterator", ["\\IteratorIterator"]),
  ("\\ArrayIterator", ["\\SeekableIterator", "\\ArrayAccess", "\\Serializable", "\\Countable"]),
  ("\\CachingIterator", ["\\IteratorIterator", "\\ArrayAccess", "\\Countable", "\\Stringable"]),
  ("\\CallbackFilterIterator", ["\\FilterIterator"]),
  ("\\DirectoryIterator", ["\\SplFileInfo", "\\SeekableIterator"]),
  ("\\EmptyIterator", ["\\Iterator"]),
  ("\\FilesystemIterator", ["\\DirectoryIterator"]),
  ("\\FilterIterator", ["\\IteratorIterator"]),
  ("\\GlobalIterator", ["\\FilesystemIterator", "\\Countable"]),
  ("\\InfiniteIterator", ["\\IteratorIterator"]),
  ("\\IteratorIterator", ["\\OuterIterator"]),
  ("\\LimitIterator", ["\\IteratorIterator"]),
  ("\\MultipleIterator", ["\\Iterator"]),
  ("\\NoRewindIterator", ["\\IteratorIterator"]),
  ("\\ParentIterator", ["\\RecursiveFilterIterator"]),
  ("\\RecursiveArrayIterator", ["\\ArrayIterator", "\\RecursiveIterator"]),
  ("\\RecursiveCachingIterator", ["\\CachingIterator", "\\RecursiveIterator"]),
  ("\\RecursiveCallbackFilterIterator", ["\\CallbackFilterIterator", "\\RecursiveIterator"]),
  ("\\RecursiveDirectoryIterator", ["\\FilesystemIterator", "\\RecursiveIterator"]),
  ("\\RecursiveFilterIterator", ["\\FilterIterator", "\\RecursiveIterator"]),
  ("\\RecursiveIteratorIterator", ["\\OuterIterator"]),
  ("\\RecursiveRegexIterator", ["\\RegexIterator", "\\RecursiveIterator"]),
  ("\\RecursiveTreeIterator", ["\\RecursiveIteratorIterator"]),
  ("\\RegexIterator", ["\\FilterIterator"]),
  -- SPL interfaces
  ("\\Countable", []),
  ("\\OuterIterator", ["\\Iterator"]),
  ("\\RecursiveIterator", ["\\Iterator"]),
  ("\\SeekableIterator", ["\\Iterator"]),
  -- SPL exceptions
  ("\\BadFunctionCallException", ["\\LogicException"]),
  ("\\BadMethodCallException", ["\\BadFunctionCallException"]),
  ("\\DomainException", ["\\LogicException"]),
  ("\\InvalidArgumentException", ["\\LogicException"]),
  ("\\LengthException", ["\\LogicException"]),
  ("\\LogicException", ["\\Exception"]),
  ("\\OutOfBoundsException", ["\\RuntimeException"]),
  ("\\OutOfRangeException", ["\\LogicException"]),
  ("\\OverflowException", ["\\RuntimeException"]),
  ("\\RangeException", ["\\RuntimeException"]),
  ("\\RuntimeException", ["\\Exception"]),
  ("\\UnderflowException", ["\\RuntimeException"]),
  ("\\UnexpectedValueException", ["\\RuntimeException"]),
  -- SPL file handling
  ("\\SplFileInfo", ["\\Stringable"]),
  ("\\SplFileObject", ["\\SplFileInfo", "\\RecursiveIterator", "\\SeekableIterator"]),
  ("\\SplTempFileObject", ["\\SplFileObject"]),
  -- SPL misc
  ("\\ArrayObject", ["\\IteratorAggregate", "\\ArrayAccess", "\\Serializable", "\\Countable"]),
  ("\\SplObserver", []),
  ("\\SplSubject", [])]

/-- The immediate supertypes of a predefined class-like. -/
def supers? (name : String) : Option (List String) :=
  classes.lookup name

/-- Number of inheritance edges among the predefined class-likes. -/
def edgeCount : Nat :=
  (classes.flatMap fun entry => entry.2).length

end DocTypes.Library
