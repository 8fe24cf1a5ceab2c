import StaticCompanion.MemberKey

namespace StaticCompanion

inductive Unselected where
  | copied
  | dropped
  deriving DecidableEq, Repr

structure Options where
  patterns : List String
  /-- The internal names of the annotations that mark a member to move. -/
  supported : NameSet
  /-- The descriptors of the annotations to leave out. -/
  omitted : NameSet
  /-- The classes whose calls may be turned to companions; `none` allows any. -/
  owners : Option NameSet
  /-- The internal names of the types to replace, with their replacements. -/
  types : NameMap
  unselected : Unselected
  deriving DecidableEq

/-- A set of patterns that is built in. -/
inductive BuiltIn where
  | library
  | concurrency
  deriving DecidableEq, Repr

structure UnknownConfig where
  name : String
  deriving DecidableEq, Repr

def UnknownConfig.message (fault : UnknownConfig) : String :=
  s!"Unexpected build config: {fault.name}"

namespace BuiltIn

def name : BuiltIn → String
  | library => "d8_desugar"
  | concurrency => "android_fix_libs"

def ofName (name : String) : Except UnknownConfig BuiltIn :=
  match [library, concurrency].find? (·.name == name) with
  | some config => .ok config
  | none => .error ⟨name⟩

def libraryPatterns : List String :=
  ["java/io/BufferedInputStream", "java/io/Desugar*", "java/io/UncheckedIOException",
    "java/lang/AbstractStringBuilder", "java/lang/CharSequence", "java/lang/DesugarCharacter",
    "java/lang/FunctionalInterface", "java/lang/Iterable",
    "java/lang/ReflectiveOperationException", "java/lang/String", "java/lang/annotation/Native",
    "java/lang/annotation/Repeatable", "java/net/URLDecoder", "java/net/URLEncoder",
    "java/nio/channels/Desugar*", "java/nio/channels/AsynchronousChannel",
    "java/nio/channels/AsynchronousFileChannel", "java/nio/channels/CompletionHandler",
    "java/nio/channels/FileChannel", "java/nio/channels/SeekableByteChannel", "java/nio/charset/*",
    "java/nio/file/*", "java/time/*", "java/util/AbstractList", "java/util/CollSer",
    "java/util/Collection", "java/util/Comparator", "java/util/Comparators", "java/util/Deque",
    "java/util/Desugar*", "java/util/DoubleSummaryStatistics", "java/util/ImmutableCollections",
    "java/util/IntSummaryStatistics", "java/util/Iterator", "java/util/KeyValueHolder",
    "java/util/List", "java/util/ListIterator", "java/util/LongSummaryStatistics", "java/util/Map",
    "java/util/NavigableMap", "java/util/NavigableSet", "java/util/Objects", "java/util/Optional*",
    "java/util/PrimitiveIterator", "java/util/Queue", "java/util/Set", "java/util/SortedMap",
    "java/util/SortedSet", "java/util/Spliterator", "java/util/Spliterators",
    "java/util/StringJoiner", "java/util/Tripwire", "java/util/concurrent/BlockingDeque",
    "java/util/concurrent/BlockingQueue", "java/util/concurrent/CompletableFuture",
    "java/util/concurrent/ConcurrentHashMap", "java/util/concurrent/ConcurrentLinkedDeque",
    "java/util/concurrent/ConcurrentLinkedQueue", "java/util/concurrent/ConcurrentMap",
    "java/util/concurrent/ConcurrentNavigableMap", "java/util/concurrent/CountedCompleter",
    "java/util/concurrent/Desugar*", "java/util/concurrent/Exchanger", "java/util/concurrent/Flow",
    "java/util/concurrent/ForkJoinPool", "java/util/concurrent/ForkJoinTask",
    "java/util/concurrent/FutureTask", "java/util/concurrent/Helpers",
    "java/util/concurrent/LinkedTransferQueue", "java/util/concurrent/Phaser",
    "java/util/concurrent/SubmissionPublisher", "java/util/concurrent/SynchronousQueue",
    "java/util/concurrent/ThreadLocalRandom", "java/util/concurrent/TransferQueue",
    "java/util/concurrent/atomic/Desugar*", "java/util/function/*", "java/util/stream/*",
    "sun/misc/Desugar*", "sun/nio/*", "sun/security/action/*", "sun/util/PreHashedMap",
    "jdk/internal/util/StaticProperty", "jdk/internal/util/Preconditions"]

def concurrencyPatterns : List String :=
  ["java/io/BufferedInputStream", "java/util/concurrent/CompletableFuture",
    "java/util/concurrent/ConcurrentHashMap", "java/util/concurrent/ConcurrentLinkedDeque",
    "java/util/concurrent/ConcurrentLinkedQueue", "java/util/concurrent/CountedCompleter",
    "java/util/concurrent/Exchanger", "java/util/concurrent/ForkJoinPool",
    "java/util/concurrent/ForkJoinTask", "java/util/concurrent/FutureTask",
    "java/util/concurrent/Helpers", "java/util/concurrent/LinkedTransferQueue",
    "java/util/concurrent/Phaser", "java/util/concurrent/SynchronousQueue",
    "java/util/concurrent/ThreadLocalRandom", "sun/misc/Desugar*"]

def patterns : BuiltIn → List String
  | library => libraryPatterns
  | concurrency => concurrencyPatterns

end BuiltIn

namespace Options

/-- The annotations that mark a member to move, unless others are given. -/
def usualSupported : List String :=
  ["com/google/devtools/build/android/annotations/DesugarSupportedApi",
    "com/google/devtools/build/android/annotations/DesugarSupportedApiHelper"]

/-- The annotations to leave out, unless others are given. -/
def usualOmitted : List String :=
  ["Lcom/google/devtools/build/android/annotations/DesugarSupportedApi;",
    "Lcom/google/devtools/build/android/annotations/DesugarSupportedApiHelper;",
    "Ljdk/internal/HotSpotIntrinsicCandidate;", "Ljdk/internal/vm/annotation/Contended;",
    "Ljdk/internal/vm/annotation/DontInline;", "Ljdk/internal/vm/annotation/ForceInline;",
    "Ljdk/internal/vm/annotation/Preserve;", "Ljdk/internal/vm/annotation/ReservedStackAccess;",
    "Ljdk/internal/vm/annotation/Stable;"]

def withPatterns (patterns : List String) : Options where
  patterns
  supported := Std.ExtTreeSet.ofList usualSupported
  omitted := Std.ExtTreeSet.ofList usualOmitted
  owners := none
  types := ∅
  unselected := .copied

def ofBuiltIn (config : BuiltIn) : Options := withPatterns config.patterns

def usual : Options := ofBuiltIn .library

end Options

end StaticCompanion
