import FlutterScaffold.Template.Sketch

/-!
# The files of a feature

A feature is a module of three layers: its domain with an entity, a repository and a use case, the
data that implements it, and the page and providers that present it. Paths are relative to the
directory of the feature.
-/

namespace FlutterScaffold.Template

namespace Feature

/-- What the feature is about. -/
def entity : Text :=
  sketch [
    "import 'package:equatable/equatable.dart';",
    "",
    "class ⟦⟦Type⟧⟧Entity extends Equatable ⟦",
    "  final int id;",
    "  final String name;",
    "  final String? description;",
    "",
    "  const ⟦⟦Type⟧⟧Entity(⟦",
    "    required this.id,",
    "    required this.name,",
    "    this.description,",
    "  ⟧);",
    "",
    "  @override",
    "  List<Object?> get props => [id, name, description];",
    "⟧"]

/-- The entity as it is sent and received. -/
def model : Text :=
  sketch [
    "import 'package:equatable/equatable.dart';",
    "import '../../domain/entities/⟦⟦snake⟧⟧_entity.dart';",
    "",
    "class ⟦⟦Type⟧⟧Model extends Equatable ⟦",
    "  final int id;",
    "  final String name;",
    "  final String? description;",
    "",
    "  const ⟦⟦Type⟧⟧Model(⟦",
    "    required this.id,",
    "    required this.name,",
    "    this.description,",
    "  ⟧);",
    "",
    "  factory ⟦⟦Type⟧⟧Model.fromJson(Map<String, dynamic> json) ⟦",
    "    return ⟦⟦Type⟧⟧Model(",
    "      id: json['id'] as int,",
    "      name: json['name'] as String,",
    "      description: json['description'] as String?,",
    "    );",
    "  ⟧",
    "",
    "  Map<String, dynamic> toJson() ⟦",
    "    return ⟦",
    "      'id': id,",
    "      'name': name,",
    "      'description': description,",
    "    ⟧;",
    "  ⟧",
    "",
    "  ⟦⟦Type⟧⟧Entity toEntity() ⟦",
    "    return ⟦⟦Type⟧⟧Entity(",
    "      id: id,",
    "      name: name,",
    "      description: description,",
    "    );",
    "  ⟧",
    "",
    "  @override",
    "  List<Object?> get props => [id, name, description];",
    "⟧"]

/-- Where entities are asked for. -/
def repository : Text :=
  sketch [
    "import 'package:dartz/dartz.dart';",
    "import '../../../../core/error/failures.dart';",
    "import '../entities/⟦⟦snake⟧⟧_entity.dart';",
    "",
    "abstract class ⟦⟦Type⟧⟧Repository ⟦",
    "  Future<Either<Failure, List<⟦⟦Type⟧⟧Entity>>> get⟦⟦Type⟧⟧s();",
    "  Future<Either<Failure, ⟦⟦Type⟧⟧Entity>> get⟦⟦Type⟧⟧ById(int id);",
    "⟧"]

/-- The repository over the network. -/
def repositoryImpl : Text :=
  sketch [
    "import 'package:dartz/dartz.dart';",
    "import 'package:dio/dio.dart';",
    "import '../../../../core/error/failures.dart';",
    "import '../../domain/entities/⟦⟦snake⟧⟧_entity.dart';",
    "import '../../domain/repositories/⟦⟦snake⟧⟧_repository.dart';",
    "import '../models/⟦⟦snake⟧⟧_model.dart';",
    "",
    "class ⟦⟦Type⟧⟧RepositoryImpl implements ⟦⟦Type⟧⟧Repository ⟦",
    "  final Dio _dio;",
    "",
    "  ⟦⟦Type⟧⟧RepositoryImpl(this._dio);",
    "",
    "  @override",
    "  Future<Either<Failure, List<⟦⟦Type⟧⟧Entity>>> get⟦⟦Type⟧⟧s() async ⟦",
    "    try ⟦",
    "      final response = await _dio.get('/⟦⟦snake⟧⟧s');",
    "      final List<dynamic> data = response.data;",
    "      final models = data.map((json) => ⟦⟦Type⟧⟧Model.fromJson(json)).toList();",
    "      return Right(models.map((model) => model.toEntity()).toList());",
    "    ⟧ catch (e) ⟦",
    "      return Left(ServerFailure(e.toString()));",
    "    ⟧",
    "  ⟧",
    "",
    "  @override",
    "  Future<Either<Failure, ⟦⟦Type⟧⟧Entity>> get⟦⟦Type⟧⟧ById(int id) async ⟦",
    "    try ⟦",
    "      final response = await _dio.get('/⟦⟦snake⟧⟧s/$id');",
    "      return Right(⟦⟦Type⟧⟧Model.fromJson(response.data).toEntity());",
    "    ⟧ catch (e) ⟦",
    "      return Left(ServerFailure(e.toString()));",
    "    ⟧",
    "  ⟧",
    "⟧"]

/-- The use case that lists the entities. -/
def useCase : Text :=
  sketch [
    "import 'package:dartz/dartz.dart';",
    "import '../../../../core/error/failures.dart';",
    "import '../entities/⟦⟦snake⟧⟧_entity.dart';",
    "import '../repositories/⟦⟦snake⟧⟧_repository.dart';",
    "",
    "class Get⟦⟦Type⟧⟧sUseCase ⟦",
    "  final ⟦⟦Type⟧⟧Repository _repository;",
    "",
    "  Get⟦⟦Type⟧⟧sUseCase(this._repository);",
    "",
    "  Future<Either<Failure, List<⟦⟦Type⟧⟧Entity>>> call() async ⟦",
    "    return await _repository.get⟦⟦Type⟧⟧s();",
    "  ⟧",
    "⟧"]

/-- The providers that wire the layers together. -/
def providers : Text :=
  sketch [
    "import 'package:flutter_riverpod/flutter_riverpod.dart';",
    "import '../../../../core/network/dio_client.dart';",
    "import '../../data/repositories/⟦⟦snake⟧⟧_repository_impl.dart';",
    "import '../../domain/usecases/get_⟦⟦snake⟧⟧s_usecase.dart';",
    "",
    "final ⟦⟦ident⟧⟧RepositoryProvider = Provider((ref) ⟦",
    "  return ⟦⟦Type⟧⟧RepositoryImpl(DioClient.instance);",
    "⟧);",
    "",
    "final get⟦⟦Type⟧⟧sUseCaseProvider = Provider((ref) ⟦",
    "  final repository = ref.watch(⟦⟦ident⟧⟧RepositoryProvider);",
    "  return Get⟦⟦Type⟧⟧sUseCase(repository);",
    "⟧);"]

/-- The page of the feature. -/
def page : Text :=
  sketch [
    "import 'package:flutter/material.dart';",
    "import 'package:flutter_riverpod/flutter_riverpod.dart';",
    "",
    "class ⟦⟦Type⟧⟧Page extends ConsumerWidget ⟦",
    "  const ⟦⟦Type⟧⟧Page(⟦super.key⟧);",
    "",
    "  @override",
    "  Widget build(BuildContext context, WidgetRef ref) ⟦",
    "    return Scaffold(",
    "      appBar: AppBar(",
    "        title: const Text('⟦⟦Type⟧⟧s'),",
    "      ),",
    "      body: const Center(",
    "        child: Text('⟦⟦Type⟧⟧ Page'),",
    "      ),",
    "    );",
    "  ⟧",
    "⟧"]

/-- The page file, the one that a route imports. -/
def pagePath : Path := sketchLine "presentation/pages/⟦⟦snake⟧⟧_page.dart"

/-- The directories of a feature. -/
def directories : List Path :=
  ["data/models", "data/repositories", "data/datasources", "domain/entities", "domain/usecases",
    "domain/repositories", "presentation/pages", "presentation/providers",
    "presentation/widgets"].map lit

/-- The files of a feature, in the order they are written. -/
def files : List Template :=
  [⟨sketchLine "domain/entities/⟦⟦snake⟧⟧_entity.dart", entity⟩,
    ⟨sketchLine "data/models/⟦⟦snake⟧⟧_model.dart", model⟩,
    ⟨sketchLine "domain/repositories/⟦⟦snake⟧⟧_repository.dart", repository⟩,
    ⟨sketchLine "data/repositories/⟦⟦snake⟧⟧_repository_impl.dart", repositoryImpl⟩,
    ⟨sketchLine "domain/usecases/get_⟦⟦snake⟧⟧s_usecase.dart", useCase⟩,
    ⟨sketchLine "presentation/providers/⟦⟦snake⟧⟧_provider.dart", providers⟩,
    ⟨pagePath, page⟩]

end Feature

end FlutterScaffold.Template
